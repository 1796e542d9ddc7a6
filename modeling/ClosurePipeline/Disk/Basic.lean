/-
A disk: a tree of directories, files and symbolic links, and the working directory relative paths start from.

A path is walked step by step from the root or the working directory. Each step needs a directory to stand in, two dots
at the root stay there, and a link is followed, at most forty on one walk. A trailing slash or dot asks for a directory.
Nothing is decided by the text of a path alone: behind a link, two dots lead to the parent of the link's target.

Names and paths have a greatest length in bytes. The length of a path is that of its text, whatever its steps are; only
`realPath?` takes a path of any length, because it goes step by step and asks for no more than the places it reaches.

- `Disk.walk`: the place some steps lead to;
- `Disk.locate`: the place a path leads to;
- `Disk.stat`, `Disk.isFile`, `Disk.isDirectory`, `Disk.readText?`, `Disk.realPath?`: what is there.
-/
import ClosurePipeline.Error
import ClosurePipeline.Path.Normal
import ClosurePipeline.Text.Measure

namespace ClosurePipeline

/-- the names on the way from the root -/
abbrev Place := List String

/-- the absolute path of a place -/
def Place.path (place : Place) : Path := ⟨"/" ++ "/".intercalate place⟩

/-- what stands at a place -/
inductive Node where
  | directory
  | file (bytes : ByteArray)
  | link (target : Path)

/-- the nodes below the root, the working directory, and the number of the process that works on them -/
structure Disk where
  nodes : List (Place × Node) := []
  cwd : Place := []
  process : Nat := 1

namespace Path

/-- the path ends in a slash or a dot, so what it names is a directory -/
def asksForDirectory (p : Path) : Bool :=
  match (p.text.toList.splitOn '/').getLast? with
  | some last => last == [] || last == ['.']
  | none => false

/-- the steps of a walk along the path -/
def steps (p : Path) : List Component := p.components ++ if p.asksForDirectory then [.here] else []

/-- a name no file system takes -/
def hasNul (p : Path) : Bool := p.text.toList.any fun c => c.toNat == 0

/-- how many bytes the text of a path may have -/
def maxLength : Nat := 4095

/-- the text has more bytes than a path may have -/
def isTooLong (p : Path) : Bool := maxLength < Text.byteLength p.text.toList

end Path

namespace Disk

/-- the node at a place; the root is a directory -/
def node? (d : Disk) (place : Place) : Option Node :=
  if place.isEmpty then some .directory else (d.nodes.find? fun n => n.1 == place).map Prod.snd

/-- how many links a walk follows -/
def maxLinks : Nat := 40

/-- how many bytes a name may have -/
def maxNameLength : Nat := 255

/-- walks on from `here`. The place reached may be empty, if only its name is new; a link at the end is followed too. -/
def walk (d : Disk) (links : Nat) (here : Place) (steps : List Component) : Except IoFault Place :=
  match steps with
  | [] => .ok here
  | c :: rest =>
    match d.node? here with
    | none => .error .notFound
    | some (.file _) | some (.link _) => .error .notDirectory
    | some .directory =>
      match c with
      | .root => d.walk links [] rest
      | .here => d.walk links here rest
      | .up => d.walk links here.dropLast rest
      | .name n =>
        if maxNameLength < Text.byteLength n.toList then .error .nameTooLong
        else
          match d.node? (here ++ [n]) with
          | some (.link target) =>
            match links with
            | 0 => .error .tooManyLinks
            | links + 1 => d.walk links here (target.steps ++ rest)
          | _ => d.walk links (here ++ [n]) rest
termination_by (links, steps.length)

/-- a path that can be handed to the disk -/
def accept (p : Path) : Except IoFault Unit :=
  if p.hasNul then .error .invalidName
  else if p.isTooLong then .error .nameTooLong
  else if p.text.isEmpty then .error .notFound
  else .ok ()

/-- the place a path leads to -/
def locate (d : Disk) (p : Path) : Except IoFault Place := do
  accept p
  d.walk maxLinks d.cwd p.steps

/-- the place and node of a path, links followed -/
def stat (d : Disk) (p : Path) : Except IoFault (Place × Node) := do
  let place ← d.locate p
  match d.node? place with
  | none => .error .notFound
  | some node => .ok (place, node)

/-- something is there -/
def isThere (d : Disk) (p : Path) : Bool := (d.stat p).toOption.isSome

/-- a file is there -/
def isFile (d : Disk) (p : Path) : Bool :=
  match d.stat p with
  | .ok (_, .file _) => true
  | _ => false

/-- a directory is there -/
def isDirectory (d : Disk) (p : Path) : Bool :=
  match d.stat p with
  | .ok (_, .directory) => true
  | _ => false

/-- the text of a file, if its bytes are UTF-8 -/
def readText? (d : Disk) (p : Path) : Option String :=
  match d.stat p with
  | .ok (_, .file bytes) => String.fromUTF8? bytes
  | _ => none

/-- the absolute path without links and dots; only the length of the result counts -/
def realPath? (d : Disk) (p : Path) : Option Path := do
  guard (!p.hasNul && !p.text.isEmpty)
  let place ← (d.walk maxLinks d.cwd p.steps).toOption
  let _ ← d.node? place
  guard (!place.path.isTooLong)
  some place.path

/-- all places that hold no directory -/
def leaves (d : Disk) : List Place := d.nodes.filterMap fun (place, node) =>
  match node with
  | .directory => none
  | _ => some place

end Disk

end ClosurePipeline
