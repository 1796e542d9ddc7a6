/-
The paths a run may look at, as far as a disk shows them. A caller that holds only part of a disk adds what is at these
paths and asks again; once nothing new comes, the run sees all it would see on the whole disk.
-/
import ClosurePipeline.Command.Run

namespace ClosurePipeline.Command

/-- the paths probed for a specifier in `file` -/
def probes (file : Path) (specifier : String) : List Path :=
  if Host.isPathSpecifier specifier then
    let base := ((file.parent?.getD ⟨"."⟩).join ⟨specifier⟩).normalize
    Host.candidates base ++ [base] ++ Host.indexFiles.map fun n => base.join ⟨n⟩
  else []

/-- the units that can be loaded from some roots -/
def unitsFrom (d : Disk) (roots : List Path) : List SourceUnit :=
  match Generation.load d roots with
  | .ok g => g.units.values
  | .error _ => []

/-- the sources behind some roots, and what is probed on the way -/
def sourceReach (d : Disk) (roots : List Path) : List Path :=
  roots ++ (unitsFrom d roots).flatMap fun u => u.summary.moduleSpecifiers.flatMap (probes u.path)

/-- the outputs for some roots -/
def outputReach (d : Disk) (config : Config) (roots : List Path) : List Path :=
  let outDir := config.outDir.getD (config.rootDir.join ⟨"dist"⟩)
  let emitter : Emitter := ⟨Host.canonical d config.rootDir, Host.canonical d outDir⟩
  outDir :: config.externsOut.toList ++ (unitsFrom d roots).flatMap fun u =>
    [emitter.outputPath u.path, Emitter.mapPath (emitter.outputPath u.path)]

/-- what a command looks at, its configuration known -/
def commandReach (d : Disk) (cwd : Path) (config : Config) : Command → List Path
  | .version => []
  | .entry main => sourceReach d ((main.map cwd.join).or config.main).toList
  | .transform r =>
    let config := configured r cwd config
    let roots := if r.files.isEmpty then config.main.toList else r.files.map cwd.join
    config.rootDir :: config.skipPaths ++ config.ignoreWarnings ++ sourceReach d roots ++ outputReach d config roots

/-- where the configuration is looked for -/
def configReach (cwd : Path) : Option Path → List Path
  | some file => [cwd.join file]
  | none => cwd.ancestors.flatMap fun dir => Config.markers.map dir.join

/-- what a command line looks at -/
def reach (d : Disk) (config : Option Path) (words : List String) : List Path :=
  match Line.parse words with
  | .error _ => []
  | .ok i =>
    let cwd := i.cwd.getD d.cwd.path
    let explicit := i.config.or config
    configReach cwd explicit ++ (match configOf d cwd explicit with
      | .ok c => commandReach d cwd c i.command
      | .error _ => [])

end ClosurePipeline.Command
