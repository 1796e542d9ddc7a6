/-
File names of source modules: which names mark a declaration file, and which endings are no part of a module's name.
-/
import ClosurePipeline.Path.Basic

namespace ClosurePipeline.Path

/-- the endings of declaration files -/
def declarationEndings : List String := [".d.ts", ".d.mts", ".d.cts"]

/-- a file of type declarations only -/
def isDeclarationFile (p : Path) : Bool :=
  let name := (p.fileName?.getD "").toList
  declarationEndings.any fun e => e.toList.isSuffixOf name

/-- the endings of source files, longer ones before those they end in -/
def sourceEndings : List String :=
  [".d.mts", ".d.cts", ".d.ts", ".tsx", ".mts", ".cts", ".ts", ".jsx", ".mjs", ".cjs", ".js"]

/-- a text without the given ending -/
def withoutEnding? (ending cs : List Char) : Option (List Char) :=
  if ending.isSuffixOf cs then some (cs.take (cs.length - ending.length)) else none

/-- a stem that can be a module's name: not empty, and no directory -/
def isStem (cs : List Char) : Bool :=
  match cs.getLast? with
  | none => false
  | some c => c ≠ '/' && c ≠ '\\'

/-- the path without the ending of a source file -/
def withoutSourceEnding (p : Path) : Path :=
  let stems := sourceEndings.filterMap fun e => (withoutEnding? e.toList p.text.toList).filter isStem
  match stems with
  | stem :: _ => ⟨String.ofList stem⟩
  | [] => p

end ClosurePipeline.Path
