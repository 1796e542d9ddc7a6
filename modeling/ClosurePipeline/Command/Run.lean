/-
Running a command on a disk. The outcome has the exit code, what is printed, and the disk behind the run.

- `entry`: the entry module, as configured or traced from the bootstrap call in the main file;
- `transform`: runs the pipeline and writes outputs, their source maps and the externs.

A run that fails prints nothing, or with JSON output its cause. Unit paths are real paths, so directories compared with
them are made real too.
-/
import ClosurePipeline.Command.Line
import ClosurePipeline.Host.Disk
import ClosurePipeline.Pipeline.Basic
import ClosurePipeline.Program.Bootstrap
import ClosurePipeline.Project.Config

namespace ClosurePipeline

/-- what a run leaves -/
structure Outcome where
  exit : Nat
  stdout : String := ""
  /-- remarks for people -/
  stderr : String := ""
  disk : Disk

namespace Command

/-- the program's name and version -/
def versionText : String := "ngpass 0.1.0"

/-- the version of the JSON results -/
def schemaVersion : Nat := 1

/-- the members every JSON result starts with -/
def resultHead (ok : Bool) : List (String × Option Json) :=
  [("schema_version", some (.ofNat schemaVersion)), ("ok", some (.bool ok))]

/-- a line with a JSON result -/
def resultLine (ok : Bool) (members : List (String × Option Json)) : String :=
  (Json.objOf (resultHead ok ++ members)).pretty ++ "\n"

/-- an error in a JSON result -/
def errorJson (e : Error) : Json := .obj [("code", .str e.code), ("message", .str e.message)]

/-- a run that ends with a remark -/
def refuse (d : Disk) (remark : String) : Outcome := { exit := 1, stderr := remark ++ "\n", disk := d }

/-- a run that fails on an error -/
def fail (d : Disk) (json : Bool) (e : Error) : Outcome :=
  if json then { exit := 1, stdout := resultLine false [("error", some (errorJson e))], disk := d }
  else refuse d e.message

/-- an entry module and where it comes from -/
structure FoundEntry where
  entryModule : String
  reference : Option EntryReference

/-- what the entry command prints -/
def FoundEntry.render (f : FoundEntry) (json : Bool) : String :=
  if json then
    resultLine true [
      ("entry_module", some (.str f.entryModule)),
      ("source", some (.str (if f.reference.isSome then "resolved" else "configured"))),
      ("module_path", f.reference.map fun r => .str r.modulePath.text),
      ("symbol_name", f.reference.map fun r => .str r.symbolName)]
  else f.entryModule ++ "\n"

/-- the entry traced from the main file, relative to the directory of that file -/
def traceEntry (d : Disk) (main : Path) : Except Error FoundEntry := do
  let reference ← Bootstrap.entry d main
  let dir := (Host.canonical d main).parent?.getD ⟨"."⟩
  .ok ⟨reference.relativeTo dir, some reference⟩

/-- finds the entry module; a main file on the command line goes before a configured entry -/
def entryIn (d : Disk) (cwd : Path) (config : Config) (main : Option Path) (json : Bool) : Outcome :=
  match main, config.entryModule with
  | none, some configured => { exit := 0, stdout := FoundEntry.render ⟨configured, none⟩ json, disk := d }
  | _, _ =>
    match (main.map cwd.join).or config.main with
    | none => refuse d "no main file: pass one or set `main` in ngpass.json"
    | some file =>
      match traceEntry d file with
      | .error e => fail d json e
      | .ok found => { exit := 0, stdout := found.render json, disk := d }

/-- the configuration with a request folded in: flags only turn things off, ES5 apart -/
def configured (r : TransformRequest) (cwd : Path) (c : Config) : Config :=
  { c with
    passes := ⟨c.passes.downlevelDecorators && !r.noDownlevel, c.passes.closurize && !r.noClosurize⟩
    googModule := c.googModule && !r.noGoogModule
    es5 := c.es5 || r.es5
    outDir := (r.outDir.map cwd.join).or c.outDir
    externsOut := (r.externsOut.map cwd.join).or c.externsOut }

/-- the directories of a configuration as real paths -/
def realDirectories (d : Disk) (c : Config) : Config :=
  let real := Host.canonical d
  { c with
    rootDir := real c.rootDir
    outDir := c.outDir.map real
    skipPaths := c.skipPaths.map real
    ignoreWarnings := c.ignoreWarnings.map real }

/-- the JSON result of a run -/
def transformJson (outDir : Path) (externsOut : Option Path) (r : RunResult) : String :=
  resultLine (!r.hasErrors) [
    ("out_dir", some (.str outDir.text)),
    ("files", some (.strs (r.files.map fun f => f.1.text))),
    ("diagnostics", some (.arr (r.diagnostics.map Diagnostic.toJson))),
    ("failures", some (.arr (r.failures.map fun f => errorJson f.toError))),
    ("externs", some (.strs (r.externs.map fun e => e.1.text))),
    ("externs_out", externsOut.map fun p => .str p.text),
    ("manifest", some r.manifest.toJson)]

/-- the remarks of a run -/
def remarks (r : RunResult) : String :=
  String.join (r.diagnostics.map (fun x => x.display ++ "\n") ++
    r.failures.map fun f => "error: " ++ f.toError.message ++ "\n")

/-- how many errors a run has -/
def errorCount (r : RunResult) : Nat := (r.diagnostics.filter Diagnostic.isError).length + r.failures.length

/-- what a finished run prints, and its exit code -/
def report (d : Disk) (json : Bool) (outDir : Path) (externsOut : Option Path) (r : RunResult) : Outcome :=
  if json then { exit := if r.hasErrors then 1 else 0, stdout := transformJson outDir externsOut r, disk := d }
  else if 0 < errorCount r then
    { exit := 1, stderr := remarks r ++ "transform failed with " ++ toString (errorCount r) ++
      " error(s)\n", disk := d }
  else
    { exit := 0
      stdout := "transformed " ++ toString r.files.length ++ " file(s) into " ++ outDir.text ++ " (" ++
        toString r.manifest.size ++ " module(s))\n"
      stderr := remarks r
      disk := d }

/-- writes the externs of a pipeline, if there is a file for them -/
def writeExterns (p : Pipeline Disk) : Option Path → Except Error Unit × Disk
  | none => (.ok (), p.host)
  | some file => Host.write p.host file p.generatedExterns

/-- runs the pipeline over files into a directory that is there -/
def transformInto (d : Disk) (config : Config) (outDir : Path) (roots : List Path) (json : Bool) : Outcome :=
  let config := realDirectories d { config with outDir := some outDir }
  let outDir := Host.canonical d outDir
  match Generation.load d roots with
  | .error e => fail d json e
  | .ok baseline =>
    let pipeline : Pipeline Disk :=
      { host := d, policy := config.policy.rules, options := ⟨config.passes, config.googModule, config.es5⟩ }
    match pipeline.run baseline ⟨config.rootDir, outDir⟩ with
    | (.error e, p) => fail p.host json e
    | (.ok result, p) =>
      match writeExterns p config.externsOut with
      | (.error e, d) => refuse d e.message
      | (.ok (), d) => report d json outDir config.externsOut result

/-- transforms the files of a request, or else the configured main file -/
def transformIn (d : Disk) (cwd : Path) (config : Config) (r : TransformRequest) (json : Bool) : Outcome :=
  let config := configured r cwd config
  let roots := if r.files.isEmpty then config.main.toList else r.files.map cwd.join
  if roots.isEmpty then refuse d "no input files: pass them or set `main` in ngpass.json"
  else
    let outDir := config.outDir.getD (config.rootDir.join ⟨"dist"⟩)
    match d.makeDirectories outDir with
    | (.error e, d) => refuse d e.message
    | (.ok (), d) => transformInto d config outDir roots json

/-- the configuration a run works with -/
def configOf (d : Disk) (cwd : Path) (explicit : Option Path) : Except Error Config :=
  match explicit with
  | some file => Config.load d (cwd.join file)
  | none => Config.nearest d cwd

/-- runs an invocation; only the version needs no configuration -/
def run (d : Disk) (i : Invocation) : Outcome :=
  let cwd := i.cwd.getD d.cwd.path
  let withConfig (act : Config → Outcome) : Outcome :=
    match configOf d cwd i.config with
    | .error e => refuse d e.message
    | .ok config => act config
  match i.command with
  | .version => { exit := 0, stdout := versionText ++ "\n", disk := d }
  | .entry main => withConfig fun config => entryIn d cwd config main i.json
  | .transform r => withConfig fun config => transformIn d cwd config r i.json

/-- how the program is used -/
def usageText : String :=
  "Usage: ngpass [-v] [--json] [--cwd PATH] [--config PATH] [COMMAND]\n\n" ++
  "Commands:\n" ++
  "  version               print the version\n" ++
  "  entry [MAIN]          find the module passed to bootstrapModule()\n" ++
  "  transform [FILES]...  run the passes and write modules with source maps\n" ++
  "      -o, --out-dir PATH   directory of the outputs\n" ++
  "      --externs PATH       file for all externs\n" ++
  "      --no-googmodule      leave outputs as they are\n" ++
  "      --es5                declare a module in each header\n" ++
  "      --no-downlevel       leave decorators as they are\n" ++
  "      --no-closurize       leave doc comments as they are\n"

/-- runs a command line; `config` is the configuration file where the words name none -/
def runLine (d : Disk) (config : Option Path) (words : List String) : Outcome :=
  match Line.parse words with
  | .error .usage => { exit := 2, stderr := usageText, disk := d }
  | .error .help => { exit := 0, stdout := usageText, disk := d }
  | .error .version => { exit := 0, stdout := versionText ++ "\n", disk := d }
  | .ok i => run d { i with config := i.config.or config }

end Command

end ClosurePipeline
