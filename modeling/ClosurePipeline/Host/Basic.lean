/-
Hosts: where source files are read and outputs written. A host is a state with six operations; everything that touches
files goes through them.

Module specifiers are resolved by probing. Only relative and absolute specifiers are; the order is: the path as written
if it has the ending of a source file, `.ts` in place of `.js`, then the path with `.ts`, `.tsx` and `.d.ts` added, then
a directory. A directory stands for its index file, which `Host.sourceFile?` steps into.
-/
import ClosurePipeline.Error
import ClosurePipeline.Path.Naming
import ClosurePipeline.Path.Normal

namespace ClosurePipeline

/-- access to files -/
class Host (σ : Type) where
  fileExists : σ → Path → Bool
  isDirectory : σ → Path → Bool
  read? : σ → Path → Option String
  /-- the form of a path that serves as a key -/
  canonical : σ → Path → Path
  /-- writes a file; what a failed write leaves behind shows in the state -/
  write : σ → Path → String → Except Error Unit × σ
  /-- the files there are, by canonical path -/
  files : σ → List Path

namespace Host

variable {σ : Type} [Host σ]

/-- a specifier that names a place and not a package -/
def isPathSpecifier (specifier : String) : Bool :=
  let cs := specifier.toList
  ['.', '/'].isPrefixOf cs || ['.', '.', '/'].isPrefixOf cs || specifier == "." || specifier == ".." ||
    Path.isAbsolute ⟨specifier⟩

/-- the endings tried, in order -/
def probeEndings : List String := [".ts", ".tsx", ".d.ts"]

/-- the files that may be meant by the normal path `base`, in order -/
def candidates (base : Path) : List Path :=
  let cs := base.text.toList
  let asWritten := if probeEndings.any fun e => e.toList.isSuffixOf cs then [base] else []
  let forScript := match Path.withoutEnding? ['.', 'j', 's'] cs with
    | some stem => [⟨String.ofList stem ++ ".ts"⟩]
    | none => []
  asWritten ++ forScript ++ probeEndings.map fun e => ⟨base.text ++ e⟩

/-- the file or directory a specifier in `file` names -/
def resolveModule? (h : σ) (specifier : String) (file : Path) : Option Path :=
  if isPathSpecifier specifier then
    let base := ((file.parent?.getD ⟨"."⟩).join ⟨specifier⟩).normalize
    match (candidates base).find? (fileExists h) with
    | some found => some found
    | none => if isDirectory h base then some base else none
  else none

/-- the index files of a directory, in order -/
def indexFiles : List String := ["index.ts", "index.tsx", "index.d.ts"]

/-- the source file a resolved module stands for -/
def sourceFile? (h : σ) (path : Path) : Option Path :=
  if isDirectory h path then (indexFiles.map fun n => path.join ⟨n⟩).find? (fileExists h)
  else if fileExists h path then some path else none

/-- the canonical path of the source file a specifier names -/
def resolveDependency? (h : σ) (specifier : String) (file : Path) : Option Path := do
  let resolved ← resolveModule? h specifier file
  let source ← sourceFile? h resolved
  some (canonical h source)

/-- how many characters the host's files hold -/
def totalLength (h : σ) : Nat := (files h).foldl (fun n p => n + ((read? h p).getD "").length) 0

/-- how many pairs of a file and a name in some file there can be, with room for names that come from elsewhere -/
def pairBound (h : σ) (extra : Nat) : Nat := ((files h).length + 1) * (totalLength h + extra + 4)

end Host

/-- a host that only passes on to another -/
structure Wrapper (σ : Type) where
  inner : σ

instance {σ : Type} [Host σ] : Host (Wrapper σ) where
  fileExists w := Host.fileExists w.inner
  isDirectory w := Host.isDirectory w.inner
  read? w := Host.read? w.inner
  canonical w := Host.canonical w.inner
  write w p text := let (r, inner) := Host.write w.inner p text; (r, ⟨inner⟩)
  files w := Host.files w.inner

/-- a host that holds nothing and takes nothing -/
structure BareHost where
deriving DecidableEq, Repr

instance : Host BareHost where
  fileExists _ _ := false
  isDirectory _ _ := false
  read? _ _ := none
  canonical _ p := p.normalize
  write h p _ := (.error (.io (.cannotWrite p)), h)
  files _ := []

end ClosurePipeline
