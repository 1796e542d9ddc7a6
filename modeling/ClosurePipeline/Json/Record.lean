/-
Records read from JSON. A record is written as an object, in any order and with other members beside its own, or as an
array of its fields in order, where fields may be missing at the end. A field given twice and an element too many are
refused.
-/
import ClosurePipeline.Json.Basic

namespace ClosurePipeline.Json

/-- the fields of a record, by name or by position; a field that is not given is `none` -/
def fields? (names : List String) : Json → Option (List (Option Json))
  | .obj members =>
    let given := names.map fun n => members.filterMap fun m => if m.1 = n then some m.2 else none
    if given.all fun vs => vs.length ≤ 1 then some (given.map List.head?) else none
  | .arr items =>
    if items.length ≤ names.length then some (items.map some ++ List.replicate (names.length - items.length) none)
    else none
  | _ => none

/-- a field read by `read`, or its default where it is not given -/
def fieldOr {α : Type} (default : α) (read : Json → Option α) : Option Json → Option α
  | none => some default
  | some j => read j

/-- text -/
def asStr? : Json → Option String
  | .str s => some s
  | _ => none

/-- a truth value -/
def asBool? : Json → Option Bool
  | .bool b => some b
  | _ => none

/-- the first number above 32 bits -/
def nat32Limit : Nat := 4294967296

/-- a natural number of at most 32 bits, written with digits alone -/
def asNat32? : Json → Option Nat
  | .num d => if d.toList.all fun c => 48 ≤ c.toNat && c.toNat ≤ 57 then d.toNat?.filter (· < nat32Limit) else none
  | _ => none

/-- null, or what `read` takes -/
def asNullable? {α : Type} (read : Json → Option α) : Json → Option (Option α)
  | .null => some none
  | j => (read j).map some

/-- an array of what `read` takes -/
def asList? {α : Type} (read : Json → Option α) : Json → Option (List α)
  | .arr items => items.mapM read
  | _ => none

end ClosurePipeline.Json
