/-
Source units and generations. A generation is a set of parsed units, one for each path, with the roots it was loaded
for. Passes never change a generation; each makes the next one.

- `Generation.load`: the roots and every file that imports and exports lead to. The search keeps the host's files it has
  not met yet; each file leaves that list when it is met, so the search ends.
-/
import ClosurePipeline.Host.Basic
import ClosurePipeline.Module.Scan
import ClosurePipeline.Path.Table

namespace ClosurePipeline

/-- a source file and its summary -/
structure SourceUnit where
  path : Path
  text : String
  summary : ModuleSummary
deriving Repr

namespace SourceUnit

/-- the unit of a text -/
def parse (path : Path) (text : String) : SourceUnit := ⟨path, text, .ofText text⟩

end SourceUnit

/-- parsed units by path -/
structure Generation where
  number : Nat := 0
  units : PathTable SourceUnit := {}
  roots : List Path := []
deriving Repr

namespace Generation

/-- the generation of given units; each is a root -/
def ofUnits (units : List SourceUnit) : Generation :=
  let table := PathTable.ofList (units.map fun u => (u.path, u))
  { units := table, roots := table.keys }

/-- the next generation: some units replaced, the others kept -/
def successor (g : Generation) (replaced : List SourceUnit) : Generation :=
  { number := g.number + 1, units := replaced.foldl (fun t u => t.insert u.path u) g.units, roots := g.roots }

section Load

variable {σ : Type} [Host σ]

/-- a path is in a list, under some spelling -/
def listed (paths : List Path) (p : Path) : Bool := paths.any fun q => decide (p.Same q)

/-- a list without a path -/
def without (paths : List Path) (p : Path) : List Path := paths.filter fun q => !decide (p.Same q)

theorem length_without_lt {paths : List Path} {p : Path} (h : listed paths p = true) :
    (without paths p).length < paths.length := by
  obtain ⟨q, hq, hs⟩ := List.any_eq_true.1 h
  exact List.length_filter_lt_length_iff_exists.2 ⟨q, hq, by simpa using hs⟩

/-- what a search has met: the files still to meet, and files to read -/
structure Frontier where
  unmet : List Path
  found : List (Path × String)

/-- follows a specifier in `file` to a file not met yet; one that cannot be read is met and left -/
def Frontier.follow (h : σ) (file : Path) (fr : Frontier) (specifier : String) : Frontier :=
  match Host.resolveDependency? h specifier file with
  | none => fr
  | some dep =>
    if listed fr.unmet dep then
      match Host.read? h dep with
      | some text => ⟨without fr.unmet dep, fr.found ++ [(dep, text)]⟩
      | none => ⟨without fr.unmet dep, fr.found⟩
    else fr

/-- follows the specifiers of a file -/
def discover (h : σ) (file : Path) (unmet : List Path) (specifiers : List String) : Frontier :=
  specifiers.foldl (Frontier.follow h file) ⟨unmet, []⟩

theorem Frontier.size_follow_le (h : σ) (file : Path) (fr : Frontier) (specifier : String) :
    (fr.follow h file specifier).unmet.length + (fr.follow h file specifier).found.length ≤
      fr.unmet.length + fr.found.length := by
  unfold follow
  split
  · exact Nat.le_refl _
  · split
    · rename_i dep _ hl
      have := length_without_lt hl
      split <;> simp <;> omega
    · exact Nat.le_refl _

theorem size_foldl_follow_le (h : σ) (file : Path) (specifiers : List String) (fr : Frontier) :
    (specifiers.foldl (Frontier.follow h file) fr).unmet.length +
      (specifiers.foldl (Frontier.follow h file) fr).found.length ≤
      fr.unmet.length + fr.found.length := by
  induction specifiers generalizing fr with
  | nil => exact Nat.le_refl _
  | cons s ss ih => exact Nat.le_trans (ih _) (fr.size_follow_le h file s)

/-- parses the files waiting and all they lead to -/
def loadFrom (h : σ) (unmet : List Path) (waiting : List (Path × String)) (units : PathTable SourceUnit) :
    PathTable SourceUnit :=
  match waiting with
  | [] => units
  | (path, text) :: waiting =>
    let unit := SourceUnit.parse path text
    loadFrom h (discover h path unmet unit.summary.moduleSpecifiers).unmet
      (waiting ++ (discover h path unmet unit.summary.moduleSpecifiers).found) (units.insert path unit)
termination_by unmet.length + waiting.length
decreasing_by
  have := size_foldl_follow_le h path (SourceUnit.parse path text).summary.moduleSpecifiers ⟨unmet, []⟩
  simp only [discover, List.length_append, List.length_cons, List.length_nil, Nat.add_zero] at this ⊢
  omega

/-- reads the roots; each file is waiting once -/
def readRoots (h : σ) : List Path → Except Error (List Path × List (Path × String))
  | [] => .ok ([], [])
  | root :: roots =>
    match Host.read? h (Host.canonical h root) with
    | none => .error (.fileNotFound root)
    | some text => do
      let (paths, waiting) ← readRoots h roots
      let path := Host.canonical h root
      .ok (path :: paths, (path, text) :: waiting.filter fun w => !decide (path.Same w.1))

/-- the roots and all they lead to -/
def load (h : σ) (roots : List Path) : Except Error Generation := do
  let (paths, waiting) ← readRoots h roots
  let unmet := (Host.files h).filter fun p => !listed paths p
  .ok { units := loadFrom h unmet waiting {}, roots := paths }

end Load

end Generation

end ClosurePipeline
