/-
A path and the paths above it, nearest first, by text alone.
-/
import ClosurePipeline.Path.Basic

namespace ClosurePipeline.Path

/-- a path and at most `n` paths above it -/
def ancestorsUpTo : Nat → Path → List Path
  | 0, p => [p]
  | n + 1, p => p :: (match p.parent? with
    | some above => ancestorsUpTo n above
    | none => [])

/-- a path and all paths above it; each step up takes at least one character away -/
def ancestors (p : Path) : List Path := ancestorsUpTo p.text.length p

end ClosurePipeline.Path
