/-
Changes to a disk. A file is written beside its place and then put there under its name, so that a link is replaced and
not written through. The name beside it is longer than its own, so a file can have a name that is too long to be
written.

- `Disk.makeDirectories`: a directory and what is missing above it;
- `Disk.save`: a file with a text, its directory made first. What was made before a fault stays.
-/
import ClosurePipeline.Disk.Basic
import ClosurePipeline.Path.Ancestors

namespace ClosurePipeline

namespace Path

/-- the last segment of the text, if it is a name -/
def lastName? (p : Path) : Option String := do
  let last ← ((p.text.toList.splitOn '/').filter (· ≠ [])).getLast?
  if last = ['.'] ∨ last = ['.', '.'] then none else some (String.ofList last)

/-- the text ends in a slash -/
def endsInSlash (p : Path) : Bool := p.text.toList.getLast? == some '/'

/-- the name under which a process writes what is to have the name of the path -/
def draftName (p : Path) (process : Nat) : String := "." ++ p.fileName?.getD "output" ++ ".tmp." ++ toString process

/-- the path at which a process writes what is to be at the path -/
def draft (p : Path) (process : Nat) : Path := (p.parent?.getD ⟨"."⟩).join ⟨p.draftName process⟩

end Path

namespace Disk

/-- puts a node at a place -/
def put (d : Disk) (place : Place) (node : Node) : Disk :=
  if d.nodes.any fun n => n.1 ==
    place then { d with nodes := d.nodes.map fun n => if n.1 == place then (place, node) else n }
  else { d with nodes := d.nodes ++ [(place, node)] }

/-- the directory at the end of some steps -/
def directoryAt (d : Disk) (steps : List Component) : Except IoFault Place := do
  let place ← d.walk maxLinks d.cwd steps
  match d.node? place with
  | some .directory => .ok place
  | some _ => .error .notDirectory
  | none => .error .notFound

/-- the place a new name would have, its directory found; nothing where the path does not end in a name -/
def target (d : Disk) (p : Path) : Except IoFault (Option Place) := do
  accept p
  match p.lastName? with
  | some n =>
    let dir ← d.directoryAt p.components.dropLast
    if maxNameLength < Text.byteLength n.toList then .error .nameTooLong else .ok (some (dir ++ [n]))
  | none => (d.directoryAt p.components).map fun _ => none

/-- makes one directory -/
def makeDirectory (d : Disk) (p : Path) : Except IoFault Disk := do
  match ← d.target p with
  | none => .error .alreadyExists
  | some place => if (d.node? place).isSome then .error .alreadyExists else .ok (d.put place .directory)

/-- makes the first of some directories, each one below the next, and those of the others it needs -/
def makeChain (d : Disk) : List Path → Except IoFault Unit × Disk
  | [] => (.error .notFound, d)
  | p :: above =>
    if p.text.isEmpty then (.ok (), d)
    else
      match d.makeDirectory p with
      | .ok made => (.ok (), made)
      | .error .notFound =>
        match d.makeChain above with
        | (.error e, d) => (.error e, d)
        | (.ok (), d) =>
          match d.makeDirectory p with
          | .ok made => (.ok (), made)
          | .error e => (if d.isDirectory p then .ok () else .error e, d)
      | .error e => (if d.isDirectory p then .ok () else .error e, d)

/-- makes a directory and what is missing above it; one that is there is left -/
def makeDirectories (d : Disk) (p : Path) : Except IoFault Unit × Disk := d.makeChain p.ancestors

/-- puts a file with these bytes in the place of whatever has the name, but not of a directory; it must be possible to
write it beside first -/
def replaceFile (d : Disk) (p : Path) (bytes : ByteArray) : Except IoFault Disk := do
  let _ ← d.target (p.draft d.process)
  match ← d.target p with
  | none => .error .busy
  | some place =>
    if p.endsInSlash then .error .notDirectory
    else
      match d.node? place with
      | some .directory => .error .isDirectory
      | _ => .ok (d.put place (.file bytes))

/-- writes a file, its directory made first -/
def save (d : Disk) (p : Path) (bytes : ByteArray) : Except IoFault Unit × Disk :=
  let (made, d) := match p.parent? with
    | some dir => d.makeDirectories dir
    | none => (.ok (), d)
  match made with
  | .error e => (.error e, d)
  | .ok () =>
    match d.replaceFile p bytes with
    | .error e => (.error e, d)
    | .ok saved => (.ok (), saved)

end Disk

end ClosurePipeline
