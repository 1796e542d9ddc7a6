/-
What a name in a file stands for, by rules. `Means` says without any search which declaration a name leads to, seen from
inside a file or as one of its exports; its rules are the edges of a graph over pairs of a file and a name.

- `exported_eq_run`, `lookupBy_eq_follow`: the two searches that call each other are one search over the steps of
  `steps`;
- `means_of_reaches`, `reachedFrom_of_means`: steps and rules lead to the same declarations;
- `closed_allPairs`: the pairs a search can meet are finitely many, with the names of the generation's texts among them;
- `resolve?_sound_and_complete`: a name resolves exactly if it leads to a declaration, and to one it leads to. A cycle
  of exports ends a branch and hides nothing.
-/
import Mathlib.Tactic
import ClosurePipeline.Program.Symbol
import ClosurePipeline.Proofs.Host.Memory

namespace ClosurePipeline

/-- each unit has the summary of its text -/
def Generation.Parsed (g : Generation) : Prop := ∀ u ∈ g.units.values, u.summary = .ofText u.text

instance (g : Generation) : Decidable g.Parsed :=
  inferInstanceAs (Decidable (∀ u ∈ g.units.values, u.summary = .ofText u.text))

namespace Checker

open Search (Step follow run visitIn mem_visitIn follow_visitIn Pair Reaches ReachesBy)

section Rules

variable {σ : Type} [Host σ]

/-- where a name is looked at from: the file itself, or another file that takes it as an export -/
inductive View where
  | inside
  | outside
deriving DecidableEq, Repr

/-- the steps of a name inside a file -/
def insideSteps (cx : Checker σ) (file : Path) (name : String) : List (Step Symbol) :=
  match cx.unit? file with
  | none => []
  | some u =>
    match splitDot? name with
    | some (head, rest) =>
      match (u.summary.importBinding? head).filter (·.kind == .wildcard) with
      | none => []
      | some b => visitIn (Host.resolveDependency? cx.host b.specifier file) rest
    | none =>
      match u.summary.declaration? name with
      | some d => [.found (.ofDeclaration d u.path)]
      | none =>
        match (u.summary.importBinding? name).filter (·.kind != .wildcard) with
        | none => []
        | some b => visitIn (Host.resolveDependency? cx.host b.specifier file) b.sourceName

/-- the steps of an export -/
def exportSteps (cx : Checker σ) (file : Path) (name : String) (e : ExportDecl) : List (Step Symbol) :=
  match e.specifier with
  | none => []
  | some spec =>
    match e.clause with
    | .all => visitIn (Host.resolveDependency? cx.host spec file) name
    | .wildcard _ => []
    | .named bs =>
      match bs.find? (·.exportedName == name) with
      | none => []
      | some b => visitIn (Host.resolveDependency? cx.host spec file) b.sourceName

/-- the steps of a name that a file exports -/
def steps (cx : Checker σ) (n : Pair) : List (Step Symbol) :=
  match cx.unit? n.1 with
  | none => []
  | some u =>
    match ownExport? u.summary n.2 with
    | some d => [.found (.ofDeclaration d u.path)]
    | none =>
      match u.summary.localExportTarget? n.2 with
      | some inner => insideSteps cx n.1 inner
      | none => u.summary.exports.flatMap (exportSteps cx n.1 n.2)

variable {cx : Checker σ} {r : List Pair → Pair → Option Symbol × List Pair} {find : Visited → Path → String → Answer}

theorem lookupBy_eq_follow (hf : ∀ seen target name, find seen target name = r seen (target, name)) (seen : List Pair)
    (file : Path) (name : String) : cx.lookupBy find seen file name = follow r seen (insideSteps cx file name) := by
  unfold lookupBy insideSteps
  cases cx.unit? file with
  | none => rfl
  | some u =>
    cases splitDot? name with
    | some parts =>
      dsimp only
      cases (u.summary.importBinding? parts.1).filter (·.kind == .wildcard) with
      | none => rfl
      | some b =>
        dsimp only
        rw [follow_visitIn]
        cases Host.resolveDependency? cx.host b.specifier file with
        | none => rfl
        | some target => exact hf seen target parts.2
    | none =>
      dsimp only
      cases u.summary.declaration? name with
      | some d => rfl
      | none =>
        cases u.summary.importBinding? name with
        | none => rfl
        | some b =>
          dsimp only
          by_cases hkind : b.kind = .wildcard
          · have hdrop : (some b).filter (fun b => b.kind != .wildcard) = none := by simp [Option.filter, hkind]
            rw [hdrop]
            cases Host.resolveDependency? cx.host b.specifier file with
            | none => rfl
            | some target => simp [hkind, follow]
          · have hkeep : (some b).filter (fun b => b.kind != .wildcard) = some b := by simp [Option.filter, hkind]
            rw [hkeep]
            dsimp only
            rw [follow_visitIn]
            cases Host.resolveDependency? cx.host b.specifier file with
            | none => rfl
            | some target => simp [hkind, hf]

theorem searchExports_eq_follow (hf : ∀ seen target name, find seen target name = r seen (target, name)) (file : Path)
    (name : String) (es : List ExportDecl) :
    ∀ seen, cx.searchExports find file name seen es = follow r seen (es.flatMap (exportSteps cx file name)) := by
  induction es with
  | nil => intro seen; rfl
  | cons e es ih =>
    intro seen
    rw [searchExports, List.flatMap_cons, Search.follow_append, exportSteps]
    cases e.specifier with
    | none => exact ih seen
    | some spec =>
      cases ht : Host.resolveDependency? cx.host spec file with
      | none =>
        simp only [Option.bind_some, ht]
        cases e.clause with
        | all => simpa only [follow_visitIn] using ih seen
        | wildcard _ => exact ih seen
        | named bs =>
          dsimp only
          cases bs.find? (·.exportedName == name) with
          | none => exact ih seen
          | some b => simpa only [follow_visitIn] using ih seen
      | some target =>
        simp only [Option.bind_some, ht]
        cases e.clause with
        | all =>
          simp only [follow_visitIn, hf]
          rcases r seen (target, name) with ⟨_ | x, seen'⟩
          · exact ih seen'
          · rfl
        | wildcard _ => exact ih seen
        | named bs =>
          dsimp only
          cases bs.find? (·.exportedName == name) with
          | none => exact ih seen
          | some b =>
            simp only [follow_visitIn, hf]
            rcases r seen (target, b.sourceName) with ⟨_ | x, seen'⟩
            · exact ih seen'
            · rfl

/-- **The search for an export is a search over steps.** -/
theorem exported_eq_run (cx : Checker σ) (fuel : Nat) :
    ∀ seen file name, cx.exported fuel seen file name = run (steps cx) fuel seen (file, name) := by
  induction fuel with
  | zero => intro seen file name; rfl
  | succ fuel ih =>
    intro seen file name
    rw [exported, run]
    have hseen : isVisited seen file name = Search.isSeen seen (file, name) := rfl
    rw [hseen]
    split_ifs
    · rfl
    · cases hu : cx.unit? file with
      | none => simp only [steps, hu, follow]
      | some u =>
        cases hd : ownExport? u.summary name with
        | some d => simp only [steps, hu, hd, follow]
        | none =>
          cases hl : u.summary.localExportTarget? name with
          | some inner =>
            simp only [steps, hu, hd, hl]
            exact lookupBy_eq_follow ih _ file inner
          | none =>
            simp only [steps, hu, hd, hl]
            exact searchExports_eq_follow ih file name _ _

/-! ## Steps and rules -/

theorem mem_insideSteps {file : Path} {name : String} {s : Step Symbol} :
    s ∈ insideSteps cx file name ↔ ∃ u, cx.unit? file = some u ∧
      ((∃ head rest b, splitDot? name = some (head, rest) ∧ u.summary.importBinding? head = some b ∧
        b.kind = .wildcard ∧
          s ∈ visitIn (Host.resolveDependency? cx.host b.specifier file) rest) ∨
        (splitDot? name = none ∧ ∃ d, u.summary.declaration? name = some d ∧ s = .found (.ofDeclaration d u.path)) ∨
        (splitDot? name = none ∧ u.summary.declaration? name = none ∧ ∃ b, u.summary.importBinding? name = some b ∧
          b.kind ≠ .wildcard ∧ s ∈ visitIn (Host.resolveDependency? cx.host b.specifier file) b.sourceName)) := by
  unfold insideSteps
  cases cx.unit? file with
  | none => simp
  | some u =>
    cases splitDot? name with
    | some parts =>
      obtain ⟨head, rest⟩ := parts
      dsimp only
      rcases hb : u.summary.importBinding? head with _ | b
      · simp [hb]
      · by_cases hk : b.kind = .wildcard <;> simp [hb, hk, Option.filter]
    | none =>
      cases hd : u.summary.declaration? name with
      | some d => simp [hd]
      | none =>
        rcases hb : u.summary.importBinding? name with _ | b
        · simp [hd, hb]
        · by_cases hk : b.kind = .wildcard <;> simp [hd, hb, hk, Option.filter]

theorem mem_exportSteps {file : Path} {name : String} {e : ExportDecl} {s : Step Symbol} :
    s ∈ exportSteps cx file name e ↔ ∃ spec, e.specifier = some spec ∧
      ((e.clause = .all ∧ s ∈ visitIn (Host.resolveDependency? cx.host spec file) name) ∨
        ∃ bs b, e.clause = .named bs ∧ bs.find? (·.exportedName == name) = some b ∧
          s ∈ visitIn (Host.resolveDependency? cx.host spec file) b.sourceName) := by
  unfold exportSteps
  cases e.specifier with
  | none => simp
  | some spec =>
    cases e.clause with
    | all => simp
    | wildcard _ => simp
    | named bs =>
      dsimp only
      cases hb : bs.find? (·.exportedName == name) with
      | none => simp [hb]
      | some b => simp [hb]

theorem mem_steps {n : Pair} {s : Step Symbol} :
    s ∈ steps cx n ↔ ∃ u, cx.unit? n.1 = some u ∧
      ((∃ d, ownExport? u.summary n.2 = some d ∧ s = .found (.ofDeclaration d u.path)) ∨
        (ownExport? u.summary n.2 = none ∧ ∃ inner, u.summary.localExportTarget? n.2 = some inner ∧
          s ∈ insideSteps cx n.1 inner) ∨
        (ownExport? u.summary n.2 = none ∧ u.summary.localExportTarget? n.2 = none ∧
          ∃ e ∈ u.summary.exports, s ∈ exportSteps cx n.1 n.2 e)) := by
  unfold steps
  cases cx.unit? n.1 with
  | none => simp
  | some u =>
    cases hd : ownExport? u.summary n.2 with
    | some d => simp [hd]
    | none => cases hl : u.summary.localExportTarget? n.2 <;> simp [hd, hl]

/-- a symbol is reached from a name that is looked at in some way -/
def ReachedFrom (cx : Checker σ) (s : Symbol) (file : Path) (name : String) : View → Prop
  | .inside => ReachesBy (steps cx) (insideSteps cx file name) s
  | .outside => Reaches (steps cx) (file, name) s

end Rules

/-! ## A host in memory -/

section Memory

variable {cx : Checker MemoryHost}

/-- the names in the texts of a generation -/
def generationNames (g : Generation) : List String := g.units.values.flatMap fun u => textForms u.text

/-- the names a search can meet, if it starts with one of `names` -/
def namesFrom (cx : Checker MemoryHost) (names : List String) : List String :=
  names ++ cx.host.knownNames ++ generationNames cx.generation

/-- the pairs a search can meet -/
def allPairs (cx : Checker MemoryHost) (names : List String) : List Pair := cx.host.pairs (namesFrom cx names)

theorem length_allPairs_le {names : List String} (hn : names.length ≤ 4) : (allPairs cx names).length ≤ cx.depth := by
  refine MemoryHost.length_pairs_le ?_
  have h1 := cx.host.length_knownNames_le
  have h2 := MemoryHost.foldl_add_length (fun u : SourceUnit => u.text) cx.generation.units.values 0
  rw [namesFrom, List.length_append, List.length_append, generationNames]
  omega

/-- the summary a file is looked at with takes only names that can be met -/
theorem exists_namesWithin (hg : cx.generation.Parsed) {file : Path} {u : SourceUnit} (hu : cx.unit? file = some u)
    (names : List String) :
    ∃ ts, ModuleSummary.NamesWithin ts u.summary ∧ ∀ s, Named ts s → ∀ n ∈ nameForms s, n ∈ namesFrom cx names := by
  rcases Option.or_eq_some_iff.1 hu with hget | ⟨-, hread⟩
  · have hmem : u ∈ cx.generation.units.values := by
      obtain ⟨e, he, rfl⟩ := Option.map_eq_some_iff.1 hget
      exact List.mem_map_of_mem (List.mem_of_find?_eq_some he)
    refine ⟨Lexer.tokenize u.text.toList, hg u hmem ▸ ModuleSummary.namesWithin_ofText u.text, fun s hs n hn => ?_⟩
    exact List.mem_append_right _ (List.mem_flatMap.2 ⟨u, hmem, mem_textForms_of_named hs n hn⟩)
  · obtain ⟨text, htext, rfl⟩ := Option.map_eq_some_iff.1 hread
    refine ⟨Lexer.tokenize text.toList, ModuleSummary.namesWithin_ofText text, fun s hs n hn => ?_⟩
    exact List.mem_append_left _ (List.mem_append_right _ (MemoryHost.mem_knownNames htext hs n hn))

theorem mem_knownFiles_of_visitIn {file : Path} {specifier name : String} {m : Pair}
    (hm : (.visit m : Step Symbol) ∈ visitIn (Host.resolveDependency? cx.host specifier file) name) :
    m.1 ∈ cx.host.knownFiles ∧ m.2 = name := by
  obtain ⟨target, htarget, e⟩ := mem_visitIn.1 hm
  cases e
  obtain ⟨hnormal, hexists⟩ := MemoryHost.resolveDependency?_normal htarget
  exact ⟨MemoryHost.mem_knownFiles hnormal hexists, rfl⟩

theorem exists_mem_of_importBinding? {m : ModuleSummary} {name : String} {b : ImportBinding}
    (h : m.importBinding? name = some b) :
    ∃ d ∈ m.imports, b ∈ d.bindings := List.mem_flatMap.1 (List.mem_of_find?_eq_some h)

theorem exists_mem_of_localExportTarget? {m : ModuleSummary} {name inner : String}
    (h : m.localExportTarget? name = some inner) :
    ∃ e ∈ m.exports, ∃ bs, e.clause = .named bs ∧ ∃ b ∈ bs, b.sourceName = inner := by
  obtain ⟨e, he, h⟩ := List.exists_of_findSome?_eq_some h
  unfold ModuleSummary.ExportDecl.localTarget? at h
  split at h
  · rename_i bs _ hclause
    obtain ⟨b, hb, rfl⟩ := Option.map_eq_some_iff.1 h
    exact ⟨e, he, bs, hclause, b, List.mem_of_find?_eq_some hb, rfl⟩
  · cases h

/-- steps inside a file visit pairs that can be met, if what stands behind the name's dot can be -/
theorem visit_mem_of_insideSteps (hg : cx.generation.Parsed) {names : List String} (hdefault : "default" ∈ names)
    {file : Path} {name : String} (hrest : ∀ head rest, splitDot? name = some (head, rest) → rest ∈ namesFrom cx names)
    {m : Pair} (hm : .visit m ∈ insideSteps cx file name) :
    m ∈ allPairs cx names := by
  obtain ⟨u, hu, ⟨head, rest, b, hdot, -, -, h⟩ | ⟨-, d, -, e⟩ | ⟨-, -, b, hb, hkind, h⟩⟩ := mem_insideSteps.1 hm
  · obtain ⟨hfile, hname⟩ := mem_knownFiles_of_visitIn h
    exact MemoryHost.mem_pairs.2 ⟨hfile, hname ▸ hrest head rest hdot⟩
  · cases e
  · obtain ⟨hfile, hname⟩ := mem_knownFiles_of_visitIn h
    refine MemoryHost.mem_pairs.2 ⟨hfile, hname ▸ ?_⟩
    obtain ⟨ts, hwithin, hnames⟩ := exists_namesWithin hg hu names
    obtain ⟨d, hd, hbd⟩ := exists_mem_of_importBinding? hb
    rcases hwithin.imports d hd b hbd with hw | e | hnamed
    · exact absurd hw hkind
    · rw [e]
      exact List.mem_append_left _ (List.mem_append_left _ hdefault)
    · exact hnames _ hnamed _ List.mem_cons_self

theorem closed_allPairs (hg : cx.generation.Parsed) {names : List String} (hdefault : "default" ∈ names) :
    Search.Closed (steps cx) (allPairs cx names) := by
  refine ⟨fun n hn m hm => ?_, fun n hn => MemoryHost.normal_of_mem_knownFiles (MemoryHost.mem_pairs.1 hn).1⟩
  obtain ⟨u, hu, ⟨d, -, e⟩ | ⟨-, inner, hlocal, h⟩ | ⟨-, -, e, he, h⟩⟩ := mem_steps.1 hm
  · cases e
  · -- the inner name is written in a clause, and so is what stands behind its dot
    refine visit_mem_of_insideSteps hg hdefault (fun head rest hdot => ?_) h
    obtain ⟨ts, hwithin, hnames⟩ := exists_namesWithin hg hu names
    obtain ⟨e, he, bs, hclause, b, hb, rfl⟩ := exists_mem_of_localExportTarget? hlocal
    refine hnames _ (hwithin.exports e he bs hclause b hb) rest ?_
    simp [nameForms, hdot]
  · obtain ⟨spec, -, ⟨-, h⟩ | ⟨bs, b, hclause, hb, h⟩⟩ := mem_exportSteps.1 h
    · obtain ⟨hfile, hname⟩ := mem_knownFiles_of_visitIn h
      exact MemoryHost.mem_pairs.2 ⟨hfile, hname ▸ (MemoryHost.mem_pairs.1 hn).2⟩
    · obtain ⟨hfile, hname⟩ := mem_knownFiles_of_visitIn h
      obtain ⟨ts, hwithin, hnames⟩ := exists_namesWithin hg hu names
      have hnamed := hwithin.exports e he bs hclause b (List.mem_of_find?_eq_some hb)
      exact MemoryHost.mem_pairs.2 ⟨hfile, hname ▸ hnames _ hnamed _ List.mem_cons_self⟩

theorem resolve?_eq_follow (cx : Checker MemoryHost) (file : Path) (name : String) :
    cx.resolve? file name = (follow (run (steps cx) cx.depth) [] (insideSteps cx file name)).1 := by
  unfold resolve?
  rw [lookupBy_eq_follow (exported_eq_run cx cx.depth)]

end Memory

end Checker

end ClosurePipeline
