/-
Tables keyed by paths, in path order. Two spellings of one path are one key.

- `insert` replaces the value of a known key and keeps its spelling;
- `ofList` takes later pairs over earlier ones, spelling included.
-/
import ClosurePipeline.Path.Basic

namespace ClosurePipeline

/-- a table from paths to values, sorted by path -/
structure PathTable (α : Type) where
  entries : List (Path × α) := []
deriving Repr

namespace PathTable

variable {α : Type}

instance : Inhabited (PathTable α) := ⟨⟨[]⟩⟩

/-- the table without entries -/
def empty : PathTable α := ⟨[]⟩

/-- puts a pair into a sorted list; `merge` makes the entry where the key is known -/
def insertWith (merge : Path × α → Path × α) (k : Path) (v : α) : List (Path × α) → List (Path × α)
  | [] => [(k, v)]
  | e :: es =>
    match k.compare e.1 with
    | .lt => (k, v) :: e :: es
    | .eq => merge e :: es
    | .gt => e :: insertWith merge k v es

/-- sets the value of `k`; a known key keeps its spelling -/
def insert (t : PathTable α) (k : Path) (v : α) : PathTable α := ⟨insertWith (fun e => (e.1, v)) k v t.entries⟩

/-- the table of a list of pairs, later ones winning -/
def ofList (es : List (Path × α)) : PathTable α := ⟨es.foldl (fun t e => insertWith (fun _ => e) e.1 e.2 t) []⟩

/-- the entry of `k` -/
def entry? (t : PathTable α) (k : Path) : Option (Path × α) := t.entries.find? fun e => decide (k.Same e.1)

/-- the value of `k` -/
def get? (t : PathTable α) (k : Path) : Option α := (t.entry? k).map Prod.snd

/-- `k` is a key -/
def contains (t : PathTable α) (k : Path) : Bool := (t.entry? k).isSome

/-- the table without `k` -/
def erase (t : PathTable α) (k : Path) : PathTable α := ⟨t.entries.filter fun e => !decide (k.Same e.1)⟩

/-- changes the value of `k`, if it is a key -/
def modify (t : PathTable α) (k : Path) (f : α → α) : PathTable α :=
  ⟨t.entries.map fun e => if k.Same e.1 then (e.1, f e.2) else e⟩

/-- the keys in order -/
def keys (t : PathTable α) : List Path := t.entries.map Prod.fst

/-- the values in the order of their keys -/
def values (t : PathTable α) : List α := t.entries.map Prod.snd

/-- how many keys there are -/
def size (t : PathTable α) : Nat := t.entries.length

/-- there is no key -/
def isEmpty (t : PathTable α) : Bool := t.entries.isEmpty

end PathTable

end ClosurePipeline
