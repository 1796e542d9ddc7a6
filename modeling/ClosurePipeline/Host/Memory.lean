/-
A host in memory: a table from normal paths to texts, and the list of paths written. A directory is there as soon as a
file is below it.
-/
import ClosurePipeline.Host.Basic
import ClosurePipeline.Path.Table

namespace ClosurePipeline

/-- files by normal path, and the paths written, in order -/
structure MemoryHost where
  table : PathTable String := {}
  writes : List Path := []
deriving Repr

namespace MemoryHost

/-- puts a file in place -/
def insert (h : MemoryHost) (path : Path) (text : String) : MemoryHost :=
  { h with table := h.table.insert path.normalize text }

/-- the host that holds these files -/
def ofFiles (files : List (Path × String)) : MemoryHost := files.foldl (fun h f => h.insert f.1 f.2) {}

/-- the text of a file -/
def file? (h : MemoryHost) (path : Path) : Option String := h.table.get? path.normalize

/-- some file is below this path -/
def hasBelow (h : MemoryHost) (path : Path) : Bool :=
  h.table.keys.any fun f => !decide (f.Same path.normalize) && f.startsWith path.normalize

/-- writes a file and keeps note of it -/
def write (h : MemoryHost) (path : Path) (text : String) : MemoryHost :=
  { h.insert path text with writes := h.writes ++ [path.normalize] }

end MemoryHost

instance : Host MemoryHost where
  fileExists h p := h.table.contains p.normalize
  isDirectory h p := h.hasBelow p
  read? h p := h.file? p
  canonical _ p := p.normalize
  write h p text := (.ok (), h.write p text)
  files h := h.table.keys

end ClosurePipeline
