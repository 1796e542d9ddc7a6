/-
Outputs as Closure modules. Every `require('x')` becomes `goog.require` of the module name of `x`, and a `goog.module`
header is put in front. The header shares the first line with the code, so lines keep their numbers; it takes the place
of a first line that only says `use strict`.

A require call is found by its text: the word at a word boundary, a parenthesis, a quoted specifier, a parenthesis, with
blanks around the specifier. Words and blanks are ASCII here. A call behind `goog.` stays.
-/
import ClosurePipeline.Project.Policy
import ClosurePipeline.Text.Blank

namespace ClosurePipeline

/-- an output as a module -/
structure GoogModule where
  text : String
  moduleName : String
  /-- the modules required, each at its first occurrence -/
  referenced : List String
deriving DecidableEq, Repr

namespace GoogModule

/-- the word a require call starts with -/
def requireWord : List Char := "require(".toList

/-- a character of a word -/
def isWordChar (c : Char) : Bool := c.isAlphanum || c = '_'

/-- a quoted specifier with blanks around it and the closing parenthesis: its text, and the rest -/
def quotedArgument? (cs : List Char) : Option (List Char × List Char) :=
  match cs.dropWhile Text.isAsciiBlank with
  | q :: rest =>
    if q = '\'' ∨ q = '"' then
      match rest.dropWhile (· ≠ q) with
      | _ :: behind =>
        match behind.dropWhile Text.isAsciiBlank with
        | ')' :: after => some (rest.takeWhile (· ≠ q), after)
        | _ => none
      | [] => none
    else none
  | [] => none

/-- a require call at the start of `cs`: its specifier, and how many characters it has -/
def requireCall? (cs : List Char) : Option (List Char × Nat) :=
  if requireWord.isPrefixOf cs then
    (quotedArgument? (cs.drop requireWord.length)).map fun (specifier, after) => (specifier, cs.length - after.length)
  else none

/-- a stretch of an output: code as it is, or a require call -/
inductive Stretch where
  | code (cs : List Char)
  | call (specifier : List Char)
deriving DecidableEq, Repr

/-- `goog.` from its end -/
def googBack : List Char := ['.', 'g', 'o', 'o', 'g']

/-- a word may start behind `before`, which is given from its end -/
def atBoundary (before : List Char) : Bool := !(before.head?.map isWordChar).getD false

/-- cuts a text into code and require calls. `before` is all that has been read, from its end. -/
def stretches (before : List Char) (cs : List Char) : List Stretch :=
  match cs with
  | [] => []
  | c :: rest =>
    match if atBoundary before then requireCall? (c :: rest) else none with
    | none => .code [c] :: stretches (c :: before) rest
    | some (specifier, n) =>
      let taken := c :: rest.take (n - 1)
      let piece := if googBack.isPrefixOf before then .code taken else .call specifier
      piece :: stretches (taken.reverse ++ before) (rest.drop (n - 1))
termination_by cs.length
decreasing_by
  · simp
  · simp only [List.length_drop, List.length_cons]; omega

/-- the module name a stretch requires -/
def Stretch.required? (name : String → String) : Stretch → Option String
  | code _ => none
  | call specifier => some (name (String.ofList specifier))

/-- the text of a stretch in the module -/
def Stretch.render (name : String → String) : Stretch → List Char
  | code cs => cs
  | call specifier => ("goog.require('" ++ name (String.ofList specifier) ++ "')").toList

/-- the first line only says `use strict` -/
def isUseStrict (line : List Char) : Bool :=
  let trimmed := String.ofList (Text.trim line)
  trimmed == "'use strict';" || trimmed == "\"use strict\";"

/-- the header of a module; the ES5 form declares a `module` with an id -/
def header (moduleName : String) (moduleId : Option String) : String :=
  "goog.module('" ++ moduleName ++ "');" ++ (match moduleId with
    | some id => " var module = module || \x7bid: '" ++ id ++ "'\x7d;"
    | none => "")

/-- the header in front of a body -/
def withHeader (head : String) (body : List Char) : String :=
  if isUseStrict (body.takeWhile (· ≠ '\n')) then head ++ String.ofList (body.dropWhile (· ≠ '\n'))
  else head ++ " " ++ String.ofList body

/-- the output `text`, written to `path`, as a module -/
def wrap (policy : Rules) (es5 : Bool) (path : Path) (text : String) : GoogModule :=
  let parts := stretches [] text.toList
  let name := policy.moduleName path
  let moduleName := policy.moduleName .empty path.text
  { text := withHeader (header moduleName (if es5 then some (policy.moduleId path) else none))
      (parts.flatMap (Stretch.render name))
    moduleName := moduleName
    referenced := (parts.filterMap (Stretch.required? name)).eraseDups }

end GoogModule

end ClosurePipeline
