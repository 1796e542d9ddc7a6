/-
The pipeline: runs the selected passes over a generation, one new generation for each, and keeps what they leave:
fragments, externs, diagnostics, and the units they failed on. Outputs are written through the pipeline, which is itself
a host:

- a `.map` file gets the fragments folded in;
- any other output that is no declaration file is wrapped as a `goog.module`, if that is on, and listed in the manifest.

A unit a pass fails on drops out of the run; later passes leave it alone and it is not emitted.
-/
import ClosurePipeline.Output.Emitter
import ClosurePipeline.Output.GoogModule
import ClosurePipeline.Output.Manifest
import ClosurePipeline.Pass.ClosureDocs
import ClosurePipeline.Pass.Downlevel
import ClosurePipeline.Pipeline.Ledger

namespace ClosurePipeline

/-- what a pipeline does -/
structure PipelineOptions where
  passes : Pass.Selection := {}
  /-- outputs become Closure modules -/
  googModule : Bool := true
  /-- headers have the ES5 form -/
  es5 : Bool := false
deriving DecidableEq, Repr

/-- a unit a pass failed on -/
structure PassFailure where
  pass : Pass
  file : Path
  fault : Pass.Fault
deriving DecidableEq, Repr

/-- the failure as an error -/
def PassFailure.toError (f : PassFailure) : Error := .passFailed f.pass f.file f.fault

/-- a host, a project, and what the passes left -/
structure Pipeline (σ : Type) where
  host : σ
  policy : Rules
  options : PipelineOptions
  manifest : Manifest := {}
  /-- externs by unit, in the order in which units first had some -/
  externs : List (Path × String) := []
  ledger : Ledger := {}
  diagnostics : List Diagnostic := []
  failures : List PassFailure := []

namespace Pipeline

variable {σ : Type} [Host σ]

/-- a pass over a unit -/
def applyPass (pass : Pass) (cx : Pass.Context) (unit : SourceUnit) : Except Pass.Fault Pass.Output :=
  match pass with
  | .decoratorDownlevel => Pass.Downlevel.apply cx unit
  | .closurize => .ok (Pass.ClosureDocs.apply cx unit)

/-- what a pass sees over a generation -/
def context (p : Pipeline σ) (baseline : Generation) : Pass.Context :=
  let checker : Checker σ := ⟨baseline, p.host⟩
  let search := checker.exported checker.depth
  ⟨fun file name => (checker.lookupBy search [] file name).1, p.policy⟩

/-- a pass has failed on this file -/
def hasFailed (p : Pipeline σ) (file : Path) : Bool := p.failures.any fun f => decide (f.file.Same file)

/-- sets the externs of a unit; a unit that has some keeps its place -/
def setExterns (externs : List (Path × String)) (file : Path) (text : String) : List (Path × String) :=
  if externs.any fun e => decide (e.1.Same file) then externs.map fun e => if e.1.Same file then (e.1, text) else e
  else externs ++ [(file, text)]

/-- all externs, each unit's under a line that names it -/
def generatedExterns (p : Pipeline σ) : String :=
  String.join (p.externs.map fun (file, text) => "// externs from " ++ file.text ++ ":\n" ++ text)

/-- keeps what a pass made of a unit, and the unit that replaces it, if its text changed -/
def keepOutput (p : Pipeline σ) (pass : Pass) (unit : SourceUnit) (out : Pass.Output) :
    Pipeline σ × Option SourceUnit :=
  let p := { p with
    diagnostics := p.diagnostics ++ out.diagnostics
    externs := match out.externs with
      | some text => setExterns p.externs unit.path text
      | none => p.externs }
  if out.text = unit.text then ({ p with ledger := p.ledger.forget unit.path pass }, none)
  else
    let ledger := match out.fragment with
      | some f => p.ledger.record unit.path pass f
      | none => p.ledger.forget unit.path pass
    ({ p with ledger := ledger }, some (.parse unit.path out.text))

/-- runs a pass on a unit -/
def runOnUnit (pass : Pass) (cx : Pass.Context) (p : Pipeline σ) (unit : SourceUnit) : Pipeline σ × Option SourceUnit :=
  if p.policy.skips unit.path then ({ p with ledger := p.ledger.forget unit.path pass }, none)
  else if p.hasFailed unit.path then (p, none)
  else
    match applyPass pass cx unit with
    | .error fault =>
      ({ p with ledger := p.ledger.forgetAll unit.path, failures := p.failures ++ [⟨pass, unit.path, fault⟩] }, none)
    | .ok out => p.keepOutput pass unit out

/-- runs a pass on units in order, and gives the units that replace some of them -/
def runOnUnits (pass : Pass) (cx : Pass.Context) : Pipeline σ → List SourceUnit → Pipeline σ × List SourceUnit
  | p, [] => (p, [])
  | p, unit :: units =>
    let (p, replaced) := runOnUnit pass cx p unit
    let (p, more) := runOnUnits pass cx p units
    (p, replaced.toList ++ more)

/-- runs a pass over a generation -/
def runPass (p : Pipeline σ) (baseline : Generation) (pass : Pass) : Pipeline σ × Generation :=
  let (q, replaced) := runOnUnits pass (p.context baseline) p baseline.units.values
  (q, baseline.successor replaced)

/-- runs the selected passes -/
def runPasses (p : Pipeline σ) (baseline : Generation) : Pipeline σ × Generation :=
  p.options.passes.passes.foldl (fun (p, g) pass => p.runPass g pass) (p, baseline)

/-- writes an output -/
def commit (p : Pipeline σ) (path : Path) (text : String) : Except Error Unit × Pipeline σ :=
  let write (p : Pipeline σ) (path : Path) (text : String) : Except Error Unit × Pipeline σ :=
    let (r, host) := Host.write p.host path text
    (r, { p with host := host })
  if path.extension? = some "map" then
    match p.ledger.compose p.host path text with
    | .error e => (.error e, p)
    | .ok composed => write p path composed
  else
    let path := Host.canonical p.host path
    if !p.options.googModule || path.isDeclarationFile then write p path text
    else
      let wrapped := GoogModule.wrap p.policy p.options.es5 path text
      let manifest :=
        wrapped.referenced.foldl (fun m r => m.addReferenced path r) (p.manifest.addModule path wrapped.moduleName)
      write { p with manifest := manifest } path wrapped.text

end Pipeline

instance {σ : Type} [Host σ] : Host (Pipeline σ) where
  fileExists p := Host.fileExists p.host
  isDirectory p := Host.isDirectory p.host
  read? p := Host.read? p.host
  canonical p := Host.canonical p.host
  write p := p.commit
  files p := Host.files p.host

/-- what a run made -/
structure RunResult where
  generation : Generation
  /-- the final text of each unit no pass failed on -/
  files : List (Path × String)
  diagnostics : List Diagnostic
  externs : List (Path × String)
  manifest : Manifest
  failures : List PassFailure

/-- a pass failed, or a diagnostic is an error -/
def RunResult.hasErrors (r : RunResult) : Bool := !r.failures.isEmpty || r.diagnostics.any Diagnostic.isError

namespace Pipeline

variable {σ : Type} [Host σ]

/-- emits units in order, up to the first that fails -/
def emitAll (e : Emitter) : Pipeline σ → List SourceUnit → Except Error Unit × Pipeline σ
  | p, [] => (.ok (), p)
  | p, unit :: units =>
    if p.hasFailed unit.path then emitAll e p units
    else
      match e.emit p unit with
      | (.error err, p) => (.error err, p)
      | (.ok (), p) => emitAll e p units

/-- what a run made, read off the pipeline behind it -/
def resultOf (p : Pipeline σ) (g : Generation) : RunResult where
  generation := g
  files := (g.units.values.filter fun u => !p.hasFailed u.path).map fun u => (u.path, u.text)
  diagnostics := p.diagnostics
  externs := p.externs
  manifest := p.manifest
  failures := p.failures

/-- runs the passes and emits the last generation -/
def run (p : Pipeline σ) (baseline : Generation) (e : Emitter) : Except Error RunResult × Pipeline σ :=
  let (p, g) := runPasses { p with diagnostics := [], failures := [] } baseline
  match p.emitAll e g.units.values with
  | (.error err, p) => (.error err, p)
  | (.ok (), p) => (.ok (p.resultOf g), p)

end Pipeline

end ClosurePipeline
