/-
The ledger of fragments: for each unit, the fragments its passes left, in pass order and at most one for each pass.

- `Ledger.record`, `Ledger.forget`: a pass's fragment replaces the one it left before;
- `Ledger.compose`: the source map of an output with the fragments of its sources folded in, newest first, so that it
  leads back to the text before all passes. Sources are found by their canonical path, read from the directory of the
  map. With nothing to fold in, the text stays as it is.
-/
import ClosurePipeline.Host.Basic
import ClosurePipeline.Path.Table
import ClosurePipeline.SourceMap.Document
import ClosurePipeline.SourceMap.Fragment
import ClosurePipeline.SourceMap.Retrace

namespace ClosurePipeline

/-- fragments by unit -/
structure Ledger where
  entries : PathTable (List (Pass × Fragment)) := {}
deriving Repr

namespace Ledger

/-- sets the fragment of a pass in a list in pass order -/
def setFragment (pass : Pass) (fragment : Fragment) : List (Pass × Fragment) → List (Pass × Fragment)
  | [] => [(pass, fragment)]
  | e :: es =>
    if e.1 = pass then (pass, fragment) :: es
    else if pass.rank < e.1.rank then (pass, fragment) :: e :: es
    else e :: setFragment pass fragment es

/-- the fragments of a unit, in pass order -/
def get (l : Ledger) (path : Path) : List (Pass × Fragment) := (l.entries.get? path).getD []

/-- a pass left a fragment for a unit -/
def record (l : Ledger) (path : Path) (pass : Pass) (fragment : Fragment) : Ledger :=
  ⟨l.entries.insert path (setFragment pass fragment (l.get path))⟩

/-- drops all fragments of a unit -/
def forgetAll (l : Ledger) (path : Path) : Ledger := ⟨l.entries.erase path⟩

/-- drops the fragment a pass left for a unit -/
def forget (l : Ledger) (path : Path) (pass : Pass) : Ledger :=
  match l.entries.get? path with
  | none => l
  | some fragments =>
    match fragments.filter fun f => f.1 ≠ pass with
    | [] => l.forgetAll path
    | left => ⟨l.entries.insert path left⟩

/-- there is no fragment -/
def isEmpty (l : Ledger) : Bool := l.entries.isEmpty

section Compose

variable {σ : Type} [Host σ]

/-- the unit a source of a map at `output` names -/
def sourceKey (h : σ) (output : Path) (source : String) : Path :=
  Host.canonical h ((output.parent?.getD .empty).join ⟨source⟩).normalize

/-- the fragments to fold in, each with its source, in order -/
def pending (l : Ledger) (h : σ) (output : Path) (sources : List String) : List (String × Fragment) :=
  sources.flatMap fun s => (l.get (sourceKey h output s)).reverse.map fun f => (s, f.2)

/-- folds a fragment into a map -/
def foldIn (m : SourceMap) (f : String × Fragment) : SourceMap := m.retrace (f.2.stamped f.1) f.1

/-- the text of the map at `output`, fragments folded in -/
def compose (l : Ledger) (h : σ) (output : Path) (base : String) : Except Error String :=
  match SourceMap.parse base with
  | .error e => .error (.sourceMap output e)
  | .ok m =>
    match l.pending h output m.sources with
    | [] => .ok base
    | fragments => .ok (fragments.foldl foldIn m).render

end Compose

end Ledger

end ClosurePipeline
