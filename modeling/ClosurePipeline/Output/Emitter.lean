/-
The emitter: writes a unit's text as a `.js` file below the output directory, with a source map that sends each line to
the same line of the unit. Declaration files are not written.
-/
import ClosurePipeline.Program.Generation
import ClosurePipeline.SourceMap.Document
import ClosurePipeline.SourceMap.Draft

namespace ClosurePipeline

/-- the directory units are in and the one outputs go to -/
structure Emitter where
  rootDir : Path
  outDir : Path
deriving DecidableEq, Repr

namespace Emitter

/-- the output for a source -/
def outputPath (e : Emitter) (source : Path) : Path :=
  ⟨(e.outDir.join (e.rootDir.relativeTo source).withoutSourceEnding).text ++ ".js"⟩

/-- the path of an output's source map -/
def mapPath (output : Path) : Path := ⟨output.text ++ ".map"⟩

/-- the name of a source in the map of an output -/
def sourceName (output source : Path) : String := ((output.parent?.getD .empty).relativeTo source).toSlash

/-- the source map of an output before any fragment is folded in: line by line -/
def baseMap (output : Path) (unit : SourceUnit) : SourceMap :=
  let (draft, source) := Draft.addSource {} (sourceName output unit.path) none
  (draft.addIdentityLines (max (Text.lineCount unit.text.toList) 1) source).build (some (output.fileName?.getD ""))

/-- the text of an output: the unit's, with a comment that names the map -/
def outputText (output : Path) (text : String) : String :=
  let ended := if text.isEmpty || text.toList.getLast? == some '\n' then text else text ++ "\n"
  ended ++ "//# sourceMappingURL=" ++ output.fileName?.getD "" ++ ".map\n"

/-- writes the outputs of a unit -/
def emit {σ : Type} [Host σ] (e : Emitter) (h : σ) (unit : SourceUnit) : Except Error Unit × σ :=
  if unit.path.isDeclarationFile then (.ok (), h)
  else
    let output := e.outputPath unit.path
    match Host.write h output (outputText output unit.text) with
    | (.error err, h) => (.error err, h)
    | (.ok (), h) => Host.write h (mapPath output) (baseMap output unit).render

end Emitter

end ClosurePipeline
