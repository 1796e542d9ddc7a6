/-
Paths as written. A path keeps its text: messages and outputs show it unchanged, doubled slashes and dots included.
Comparing, ordering and prefix tests go by components instead, so `/p//a` and `/p/./a` are the same place under two
spellings.

- `Path.components`: the components a text stands for; empty segments and inner dots stand for none;
- `Path.Same`, `Path.compare`, `Path.startsWith`: equality, order and prefix by component;
- `Path.parent?`, `Path.fileName?`, `Path.extension?`, `Path.join`: cutting and joining the text.
-/

namespace ClosurePipeline

/-- a slash-separated path, as written -/
structure Path where
  text : String
deriving DecidableEq, Repr, Inhabited

/-- one component of a path -/
inductive Component where
  /-- the leading slash -/
  | root
  /-- a leading dot -/
  | here
  /-- two dots -/
  | up
  | name (s : String)
deriving DecidableEq, Repr

namespace Component

/-- the component's text -/
def text : Component → String
  | root => "/"
  | here => "."
  | up => ".."
  | name s => s

/-- the root comes first, then a dot, then two dots, then names by their characters -/
def compare : Component → Component → Ordering
  | root, root => .eq
  | root, _ => .lt
  | here, root => .gt
  | here, here => .eq
  | here, _ => .lt
  | up, up => .eq
  | up, name _ => .lt
  | up, _ => .gt
  | name s, name t => Ord.compare s t
  | name _, _ => .gt

/-- the component a segment between slashes stands for, if any -/
def ofSegment (cs : List Char) : Option Component :=
  if cs = [] ∨ cs = ['.'] then none else if cs = ['.', '.'] then some up else some (name (String.ofList cs))

end Component

namespace Path

/-- the empty path -/
def empty : Path := ⟨""⟩

/-- the path starts at the root -/
def isAbsolute (p : Path) : Bool := p.text.toList.head? == some '/'

/-- the leading slash or leading dot of a path, apart from its segments -/
def lead (p : Path) : List Char :=
  match p.text.toList with
  | '/' :: _ => ['/']
  | ['.'] => ['.']
  | '.' :: '/' :: _ => ['.']
  | _ => []

/-- what stands between the slashes behind the lead -/
def segments (p : Path) : List (List Char) := (p.text.toList.drop p.lead.length).splitOn '/'

/-- the component of the lead -/
def leadComponents (p : Path) : List Component :=
  match p.lead with
  | [] => []
  | c :: _ => if c = '/' then [.root] else [.here]

/-- the components a path stands for -/
def components (p : Path) : List Component := p.leadComponents ++ p.segments.filterMap Component.ofSegment

/-- two spellings of one path -/
def Same (p q : Path) : Prop := p.components = q.components

instance (p q : Path) : Decidable (Same p q) := inferInstanceAs (Decidable (_ = _))

/-- the order of two component lists, the first difference deciding -/
def compareComponents : List Component → List Component → Ordering
  | [], [] => .eq
  | [], _ :: _ => .lt
  | _ :: _, [] => .gt
  | a :: as, b :: bs => (a.compare b).then (compareComponents as bs)

/-- the order of paths -/
def compare (p q : Path) : Ordering := compareComponents p.components q.components

/-- `q` is `p` or one of the directories above it -/
def startsWith (p q : Path) : Bool := q.components.isPrefixOf p.components

/-- the segments from the last one back, without the trailing ones that stand for nothing -/
def segmentsBack (segs : List (List Char)) : List (List Char) :=
  segs.reverse.dropWhile fun s => (Component.ofSegment s).isNone

/-- the path without its last component -/
def parent? (p : Path) : Option Path :=
  match segmentsBack p.segments with
  | _ :: rest => some ⟨String.ofList (p.lead ++ ['/'].intercalate (segmentsBack rest.reverse).reverse)⟩
  | [] => if p.lead = ['.'] then some empty else none

/-- the last component, if it is a name -/
def fileName? (p : Path) : Option String :=
  match segmentsBack p.segments with
  | s :: _ => if s = ['.', '.'] then none else some (String.ofList s)
  | [] => none

/-- what stands behind the last dot of the file name, unless that dot is its first character -/
def extension? (p : Path) : Option String := do
  let name ← p.fileName?
  let back := name.toList.reverse
  match back.dropWhile (· ≠ '.') with
  | _ :: _ :: _ => some (String.ofList (back.takeWhile (· ≠ '.')).reverse)
  | _ => none

/-- `q` read from directory `p`; an absolute `q` stands alone -/
def join (p q : Path) : Path :=
  if q.isAbsolute then q
  else if p.text = "" ∨ p.text.toList.getLast? = some '/' then ⟨p.text ++ q.text⟩
  else ⟨p.text ++ "/" ++ q.text⟩

end Path

end ClosurePipeline
