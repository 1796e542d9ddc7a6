/-
The program: runs a command line on the real disk. The parts of the disk a run can reach are read first, the run is made
on them, and what it changed is written back.
-/
import ClosurePipeline.Command.Reach

namespace ClosurePipeline.Main

/-- the place of an absolute path without dots -/
def placeOf (text : String) : Place := (text.splitOn "/").filter (· ≠ "")

/-- what stands at a place; a link leads to its final target -/
def readNode (place : Place) : IO (Option Node) := do
  let path := (← IO.currentDir) / place.path.text
  try
    match (← path.symlinkMetadata).type with
    | .dir => return some .directory
    | .file => return some (.file (← IO.FS.readBinFile path))
    | .symlink => return some (.link ⟨(← IO.FS.realPath path).toString⟩)
    | .other => return none
  catch _ => return none

/-- reads what stands at a place and above it into a disk -/
def readChain (d : Disk) (place : Place) : IO Disk :=
  ((List.range place.length).map fun n => place.take (n + 1)).foldlM (fun d p => do
    if (d.node? p).isSome then return d
    match ← readNode p with
    | some node => return d.put p node
    | none => return d) d

/-- the places a path passes by its text, and the one it leads to -/
def placesOf (text : String) : IO (List Place) := do
  let passed := (Path.ancestors ⟨text⟩).map fun p => placeOf p.normalize.text
  try return passed ++ [placeOf (← IO.FS.realPath text).toString] catch _ => return passed

/-- reads all that a command line can reach, until nothing new is asked for -/
partial def readAll (config : Option Path) (words : List String) (d : Disk) (known : List String) : IO Disk := do
  let wanted := (Command.reach d config words).map fun p => (d.cwd.path.join p).text
  let links := d.nodes.filterMap fun (_, node) =>
    match node with
    | .link target => some target.text
    | _ => none
  match ((wanted ++ links).filter fun p => !known.contains p).eraseDups with
  | [] => return d
  | fresh =>
    let places ← fresh.mapM placesOf
    readAll config words (← places.flatten.foldlM readChain d) (known ++ fresh)

/-- writes a file beside its place and moves it there -/
def writeFileAt (process : Nat) (place : Place) (bytes : ByteArray) : IO Unit := do
  let draft := place.path.draft process
  IO.FS.writeBinFile draft.text bytes
  IO.FS.rename draft.text place.path.text

/-- writes back what changed -/
def writeBack (before after : Disk) : IO Unit :=
  after.nodes.forM fun (place, node) =>
    match before.node? place, node with
    | some .directory, .directory => pure ()
    | _, .directory => IO.FS.createDirAll place.path.text
    | some (.file old), .file bytes => if old.data == bytes.data then pure () else writeFileAt after.process place bytes
    | _, .file bytes => writeFileAt after.process place bytes
    | _, .link _ => pure ()

/-- runs a command line and gives its exit code -/
def run (args : List String) : IO UInt32 := do
  let config := (← IO.getEnv "NGPASS_CONFIG").map Path.mk
  let cwd := placeOf (← IO.FS.realPath (← IO.currentDir)).toString
  let disk ← readAll config args (← readChain { cwd := cwd } cwd) []
  let outcome := Command.runLine disk config args
  writeBack disk outcome.disk
  (← IO.getStdout).putStr outcome.stdout
  (← IO.getStderr).putStr outcome.stderr
  return outcome.exit.toUInt32

end ClosurePipeline.Main

def main (args : List String) : IO UInt32 := ClosurePipeline.Main.run args
