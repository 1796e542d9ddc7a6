/-
A disk as a host. The key of a file is its real path; of a path that leads nowhere, its normal form.
-/
import ClosurePipeline.Disk.Change
import ClosurePipeline.Host.Basic

namespace ClosurePipeline

instance : Host Disk where
  fileExists := Disk.isFile
  isDirectory := Disk.isDirectory
  read? := Disk.readText?
  canonical d p := (d.realPath? p).getD p.normalize
  write d p text := let (r, d) := d.save p text.toUTF8; (r.mapError .io, d)
  files d := d.leaves.map Place.path

end ClosurePipeline
