/-
Edit scripts: changes to a text, given by byte ranges of it, and what becomes of each place.

- `EditScript.pieces`: the text cut into stretches that are kept and stretches that are replaced. Edits apply by start,
  and in the order given where starts are equal; one that starts inside an earlier one, is inverted or ends beyond the
  text is dropped;
- `EditScript.run`: the new text, and the fragment that leads back. The fragment has a pair for the start of the text,
  for the start of every line of the new text and for every point where keeping resumes. A line inside inserted text
  leads back to the point of insertion.
-/
import ClosurePipeline.SourceMap.Fragment

namespace ClosurePipeline

/-- a byte range and the text to put there -/
structure Edit where
  start : Nat
  stop : Nat
  text : List Char
deriving DecidableEq, Repr

namespace Edit

/-- puts a text in -/
def insert (offset : Nat) (text : List Char) : Edit := ⟨offset, offset, text⟩

/-- takes a range out -/
def remove (start stop : Nat) : Edit := ⟨start, stop, []⟩

end Edit

/-- a stretch of a text under edit -/
inductive Piece where
  | kept (cs : List Char)
  | replaced (old new : List Char)
deriving DecidableEq, Repr

namespace Piece

/-- the new text of a piece -/
def text : Piece → List Char
  | kept cs => cs
  | replaced _ new => new

end Piece

namespace EditScript

/-- edits by start, those with one start in the order given -/
def sort (edits : List Edit) : List Edit := edits.mergeSort fun a b => a.start ≤ b.start

/-- an edit fits into the text from byte `pos` to byte `stop` -/
def fits (pos stop : Nat) (e : Edit) : Bool := pos ≤ e.start && e.start ≤ e.stop && e.stop ≤ stop

/-- cuts `rest`, which starts at byte `pos`, by sorted edits -/
def cut (pos : Nat) (rest : List Char) : List Edit → List Piece
  | [] => [.kept rest]
  | e :: es =>
    if fits pos (pos + Text.byteLength rest) e then
      let behind := Text.dropBytes (e.start - pos) rest
      .kept (Text.takeBytes (e.start - pos) rest) :: .replaced (Text.takeBytes (e.stop - e.start) behind) e.text ::
        cut e.stop (Text.dropBytes (e.stop - e.start) behind) es
    else cut pos rest es

/-- a text cut by edits -/
def pieces (source : List Char) (edits : List Edit) : List Piece := cut 0 source (sort edits)

/-- the new text of pieces -/
def textOf (ps : List Piece) : List Char := ps.flatMap Piece.text

/-- how far the new text and the old one have been followed, and the pairs found -/
structure Trail where
  generated : Position := .start
  origin : Position := .start
  fragment : Fragment := .empty
deriving DecidableEq, Repr

namespace Trail

/-- notes that the generated place goes back to `origin` -/
def note (t : Trail) (origin : Position) : Trail := { t with fragment := t.fragment.push t.generated origin }

/-- follows a character kept -/
def keep (t : Trail) (c : Char) : Trail :=
  let t := { t with generated := t.generated.advance c, origin := t.origin.advance c }
  if c = '\n' then t.note t.origin else t

/-- follows a character put in; lines go back to where the old text stands -/
def put (t : Trail) (c : Char) : Trail :=
  let t := { t with generated := t.generated.advance c }
  if c = '\n' then t.note t.origin else t

/-- follows a piece -/
def follow (t : Trail) : Piece → Trail
  | .kept cs => cs.foldl keep t
  | .replaced old new =>
    let t := new.foldl put t
    let t := { t with origin := t.origin.advanceAll old }
    t.note t.origin

end Trail

/-- the pairs that lead from the new text of pieces back to the old -/
def fragmentOf (ps : List Piece) : Fragment := (ps.foldl Trail.follow (Trail.note {} .start)).fragment

/-- the text after the edits with `trailer` behind it, and the fragment that leads back; nothing leads back from the
trailer -/
def run (source : List Char) (edits : List Edit) (trailer : List Char) : List Char × Fragment :=
  let ps := pieces source edits
  (textOf ps ++ trailer, fragmentOf ps)

/-- the leading spaces and tabs of the line that byte `offset` is on -/
def indentation (source : List Char) (offset : Nat) : List Char :=
  let before := Text.takeBytes offset source
  let lineStart := before.reverse.takeWhile (· ≠ '\n')
  (lineStart.reverse ++ Text.dropBytes offset source).takeWhile fun c => c = ' ' || c = '\t'

end EditScript

end ClosurePipeline
