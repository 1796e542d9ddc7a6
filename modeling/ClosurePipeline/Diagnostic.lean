/-
Diagnostics: what a pass has to say about a unit without failing on it.
-/
import ClosurePipeline.Json.Basic
import ClosurePipeline.Path.Basic

namespace ClosurePipeline

/-- how serious a diagnostic is -/
inductive Severity where
  | info
  | warning
  | error
deriving DecidableEq, Repr

/-- the word for a severity -/
def Severity.name : Severity → String
  | info => "info"
  | warning => "warning"
  | error => "error"

/-- a remark on a place of a file; lines and columns are 1-based -/
structure Diagnostic where
  severity : Severity
  code : Option String := none
  message : String
  file : Option Path := none
  line : Option Nat := none
  column : Option Nat := none
deriving DecidableEq, Repr

namespace Diagnostic

/-- a remark on the start of the 0-based line `line` of `file` -/
def atLine (severity : Severity) (code message : String) (file : Path) (line : Nat) : Diagnostic :=
  ⟨severity, some code, message, some file, some (line + 1), some 1⟩

/-- the remark is an error -/
def isError (d : Diagnostic) : Bool := d.severity == .error

/-- where the remark applies, for people -/
def place (d : Diagnostic) : String :=
  match d.file, d.line, d.column with
  | some file, some line, some column => " at " ++ file.text ++ ":" ++ toString line ++ ":" ++ toString column
  | _, _, _ => ""

/-- the remark on one line, for people -/
def display (d : Diagnostic) : String :=
  d.severity.name ++ (match d.code with
    | some code => "[" ++ code ++ "]"
    | none => "") ++ ": " ++ d.message ++ d.place

/-- the members of the remark's JSON -/
def members (d : Diagnostic) : List (String × Option Json) := [
  ("severity", some (.str d.severity.name)),
  ("code", d.code.map .str),
  ("message", some (.str d.message)),
  ("file", d.file.map fun p => .str p.text),
  ("line", d.line.map Json.ofNat),
  ("column", d.column.map Json.ofNat)]

/-- the remark as JSON; parts that are not there are left out -/
def toJson (d : Diagnostic) : Json := Json.objOf d.members

end Diagnostic

end ClosurePipeline
