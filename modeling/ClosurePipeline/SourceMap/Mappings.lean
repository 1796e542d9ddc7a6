/-
The mappings text of a source map: lines divided by semicolons, segments by commas, and each segment one, four or five
VLQ numbers. A number is the difference to the same field of the segment before; the generated column starts again on
each line.

- `Mappings.decode`: the segments of a text, or the first fault in it. Running sums are 64-bit words; what they index
  must exist;
- `Mappings.encode`: the text of segments.
-/
import ClosurePipeline.SourceMap.Basic
import ClosurePipeline.SourceMap.Vlq

namespace ClosurePipeline.Mappings

/-- the fields of a segment -/
inductive Field where
  | generatedColumn
  | source
  | line
  | column
  | name
deriving DecidableEq, Repr

/-- why a text holds no mappings -/
inductive Fault where
  | digits (cause : Vlq.Fault) (segment : List Char)
  | fieldCount (segment : List Char) (count : Nat)
  /-- a running sum is negative or above 2^32 - 1 -/
  | outOfRange (field : Field) (value : Int)
  | noSource (index : Nat)
  | noName (index : Nat)
  | tooManyLines
  /-- a running sum leaves the range of a 64-bit word -/
  | overflow
deriving DecidableEq, Repr

/-- how a message names a field -/
def Field.title : Field → String
  | generatedColumn => "generated column"
  | source => "source index"
  | line => "original line"
  | column => "original column"
  | name => "name index"

/-- the wording of a fault -/
def Fault.message : Fault → String
  | digits cause seg => cause.message seg
  | fieldCount seg n => "segment " ++ String.ofList (Text.quoted seg) ++ " has " ++ toString n ++ " fields"
  | outOfRange f v => f.title ++ " out of range: " ++ toString v
  | noSource i => "source index " ++ toString i ++ " without a source"
  | noName i => "name index " ++ toString i ++ " without a name"
  | tooManyLines => "too many lines"
  | overflow => "attempt to add with overflow"

/-- the first number above the signed 64-bit words -/
def wordLimit : Int := 9223372036854775808

/-- the first number above the 32-bit indices -/
def indexLimit : Nat := 4294967296

/-- a sum of two 64-bit words -/
def addWord (a b : Int) : Except Fault Int :=
  if -wordLimit ≤ a + b ∧ a + b < wordLimit then .ok (a + b) else .error .overflow

/-- a running sum as an index -/
def toIndex (field : Field) (v : Int) : Except Fault Nat :=
  if 0 ≤ v ∧ v < indexLimit then .ok v.toNat else .error (.outOfRange field v)

/-- the running sums that go on from line to line -/
structure Sums where
  source : Int := 0
  line : Int := 0
  column : Int := 0
  name : Int := 0
deriving DecidableEq, Repr

/-- how many sources and names a map lists -/
structure Extent where
  sources : Nat
  names : Nat
deriving DecidableEq, Repr

/-- the index of a listed source -/
def sourceIndex (ext : Extent) (v : Int) : Except Fault Nat := do
  let i ← toIndex .source v
  if i < ext.sources then .ok i else .error (.noSource i)

/-- the index of a listed name -/
def nameIndex (ext : Extent) (v : Int) : Except Fault Nat := do
  let i ← toIndex .name v
  if i < ext.names then .ok i else .error (.noName i)

/-- the origin four numbers give, and the sums behind it; a fifth number is the name's -/
def readOrigin (ext : Extent) (sums : Sums) (ds dl dc : Int) (dn : Option Int) : Except Fault (Origin × Sums) := do
  let source ← addWord sums.source ds
  let line ← addWord sums.line dl
  let column ← addWord sums.column dc
  let si ← sourceIndex ext source
  let (ni, name) ← match dn with
    | none => .ok (none, sums.name)
    | some d => do
      let name ← addWord sums.name d
      let i ← nameIndex ext name
      .ok (some i, name)
  let li ← toIndex .line line
  let ci ← toIndex .column column
  .ok (⟨si, ⟨li, ci⟩, ni⟩, ⟨source, line, column, name⟩)

/-- the reader's state: the sums, and the generated column of the segment before on this line -/
structure Reader where
  sums : Sums
  column : Int
deriving DecidableEq, Repr

/-- reads one segment -/
def readSegment (ext : Extent) (line : Nat) (r : Reader) (seg : List Char) : Except Fault (Segment × Reader) := do
  let values ← (Vlq.decode seg).mapError fun e => Fault.digits e seg
  let column ← addWord r.column (values.headD 0)
  let (origin, sums) ← match values with
    | [_] => .ok (none, r.sums)
    | [_, ds, dl, dc] => do
      let (o, sums) ← readOrigin ext r.sums ds dl dc none
      .ok (some o, sums)
    | [_, ds, dl, dc, dn] => do
      let (o, sums) ← readOrigin ext r.sums ds dl dc (some dn)
      .ok (some o, sums)
    | vs => .error (.fieldCount seg vs.length)
  let ci ← toIndex .generatedColumn column
  .ok (⟨⟨line, ci⟩, origin⟩, ⟨sums, column⟩)

/-- reads the segments of a line -/
def readLine (ext : Extent) (line : Nat) : Reader → List (List Char) → Except Fault (List Segment × Sums)
  | r, [] => .ok ([], r.sums)
  | r, seg :: segs => do
    let (s, r) ← readSegment ext line r seg
    let (ss, sums) ← readLine ext line r segs
    .ok (s :: ss, sums)

/-- reads lines from line `line` on -/
def readLines (ext : Extent) : Nat → Sums → List (List Char) → Except Fault (List Segment)
  | _, _, [] => .ok []
  | line, sums, text :: texts => do
    if indexLimit ≤ line then .error .tooManyLines
    else
      let (segs, sums) ← readLine ext line ⟨sums, 0⟩ ((text.splitOn ',').filter (· ≠ []))
      let more ← readLines ext (line + 1) sums texts
      .ok (segs ++ more)

/-- the segments of a mappings text, sorted -/
def decode (ext : Extent) (text : List Char) : Except Fault (List Segment) :=
  (readLines ext 0 {} (text.splitOn ';')).map Segment.sort

/-- the writer's state: the current line, whether it has a segment yet, and the fields of the segment before -/
structure Writer where
  line : Nat := 0
  first : Bool := true
  column : Int := 0
  sums : Sums := {}
deriving DecidableEq, Repr

/-- moves on to a line -/
def Writer.toLine (w : Writer) (line : Nat) : List Char × Writer :=
  if w.line < line then (List.replicate (line - w.line) ';', { w with line := line, first := true, column := 0 })
  else ([], w)

/-- the numbers of an origin and the sums behind it -/
def originNumbers (sums : Sums) (o : Origin) : List Int × Sums :=
  let base : List Int := [o.source - sums.source, o.position.line - sums.line, o.position.column - sums.column]
  match o.name with
  | none => (base, { sums with source := o.source, line := o.position.line, column := o.position.column })
  | some n => (base ++ [n - sums.name], ⟨o.source, o.position.line, o.position.column, n⟩)

/-- the numbers of a segment, the generated column aside, and the sums behind it -/
def segmentNumbers (sums : Sums) : Option Origin → List Int × Sums
  | none => ([], sums)
  | some o => originNumbers sums o

/-- writes segments in order -/
def writeSegments (w : Writer) : List Segment → List Char
  | [] => []
  | s :: ss =>
    let (breaks, w) := w.toLine s.generated.line
    let (numbers, sums) := segmentNumbers w.sums s.origin
    breaks ++ (if w.first then [] else [',']) ++ Vlq.encodeAll ((s.generated.column - w.column) :: numbers) ++
      writeSegments ⟨w.line, false, s.generated.column, sums⟩ ss

/-- the mappings text of segments -/
def encode (segments : List Segment) : List Char := writeSegments {} (Segment.sort segments)

end ClosurePipeline.Mappings
