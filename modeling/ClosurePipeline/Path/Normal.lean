/-
Normal paths: dots resolved by text alone, without looking at any disk.

- `Path.normalize`: the shortest spelling of a path; two dots behind a name cancel it, two dots at the root are dropped,
  two dots at the start of a relative path stay;
- `Path.relativeTo`: the path of a target read from a directory, both normal;
- `Path.dotRelativeTo`: the same in the form of a module specifier.
-/
import ClosurePipeline.Path.Basic

namespace ClosurePipeline

namespace Path

/-- the text of a component list -/
def ofComponents : List Component → Path
  | .root :: cs => ⟨"/" ++ "/".intercalate (cs.map Component.text)⟩
  | cs => ⟨"/".intercalate (cs.map Component.text)⟩

/-- one component more on a stack of resolved components, the last one on top -/
def resolveStep (stack : List Component) : Component → List Component
  | .here => stack
  | .up =>
    match stack with
    | .name _ :: rest => rest
    | .root :: _ => stack
    | _ => .up :: stack
  | c => c :: stack

/-- components with the dots resolved -/
def resolveDots (cs : List Component) : List Component := (cs.foldl resolveStep []).reverse

/-- the normal spelling of a path -/
def normalize (p : Path) : Path := ofComponents (resolveDots p.components)

/-- drops what two component lists have in common at their start -/
def dropCommon : List Component → List Component → List Component × List Component
  | a :: as, b :: bs => if a = b then dropCommon as bs else (a :: as, b :: bs)
  | as, bs => (as, bs)

/-- the path of `target` read from directory `dir`; an absolute and a relative path share nothing,
and `target` stands -/
def relativeTo (dir target : Path) : Path :=
  let source := resolveDots dir.components
  let goal := resolveDots target.components
  if dir.isAbsolute = target.isAbsolute then
    let (above, below) := dropCommon source goal
    ofComponents (above.map (fun _ => .up) ++ below)
  else ofComponents goal

/-- the text with slashes for backslashes -/
def toSlash (p : Path) : String := p.text.map fun c => if c = '\\' then '/' else c

/-- the path of `target` read from `dir`, starting with a dot as a module specifier does -/
def dotRelativeTo (dir target : Path) : String :=
  let rel := (relativeTo dir target).toSlash
  if ['.', '.', '/'].isPrefixOf rel.toList ∨ rel = ".." then rel else "./" ++ rel

end Path

end ClosurePipeline
