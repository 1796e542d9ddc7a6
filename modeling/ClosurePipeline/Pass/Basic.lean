/-
The two passes over source units and the selection of them a run makes. Passes run in a fixed order.
-/

namespace ClosurePipeline

/-- a pass over source units -/
inductive Pass where
  /-- annotation decorators become static data -/
  | decoratorDownlevel
  /-- Closure doc comments, record shims and externs -/
  | closurize
deriving DecidableEq, Repr

namespace Pass

/-- all passes, in the order in which they run -/
def all : List Pass := [decoratorDownlevel, closurize]

/-- the name of a pass -/
def name : Pass → String
  | decoratorDownlevel => "decorator-downlevel"
  | closurize => "closurize"

/-- the pass of a name -/
def ofName? (s : String) : Option Pass := all.find? (·.name == s)

/-- the place of a pass in the order -/
def rank : Pass → Nat
  | decoratorDownlevel => 0
  | closurize => 1

/-- why a pass cannot handle a unit -/
inductive Fault where
  /-- a decorated class without braces -/
  | noBody (className : String)
deriving DecidableEq, Repr

/-- the code of a fault -/
def Fault.code : Fault → String
  | noBody _ => "NGPASS_DOWNLEVEL_NO_BODY"

/-- the wording of a fault -/
def Fault.message : Fault → String
  | noBody name => "class " ++ name ++ " has decorators but no body"

/-- code and wording -/
def Fault.display (f : Fault) : String := f.code ++ ": " ++ f.message

/-- which passes a run makes -/
structure Selection where
  downlevelDecorators : Bool := true
  closurize : Bool := true
deriving DecidableEq, Repr

/-- a selection includes a pass -/
def Selection.includes (s : Selection) : Pass → Bool
  | .decoratorDownlevel => s.downlevelDecorators
  | .closurize => s.closurize

/-- the selected passes, in order -/
def Selection.passes (s : Selection) : List Pass := Pass.all.filter s.includes

end Pass

end ClosurePipeline
