/-
The entry of an application, by rules. `Derives` says without any search which class a module gives under a name: its
source file declares the class, or passes the name on by `export *`, or by a named export from a directory, or from a
file that declares the class. `Leads` says which class an import of the main file brings in under a name.

- `search_eq_follow`: the search for an export is the search over the steps of `steps`;
- `isSome_search_iff`, `derives_of_search`: it finds a class exactly if some class is derived, and what it finds is
  derived. Cyclic exports end it and hide nothing;
- `isSome_findSome?_followImport_iff`: the imports give a class exactly if one leads to it;
- `entry_sound_and_complete`: the four answers of `entry`, each with its exact condition. `entry_application` is an
  entry behind a directory's index and two exports.
-/
import Mathlib.Tactic
import ClosurePipeline.Program.Bootstrap
import ClosurePipeline.Proofs.Host.Memory

namespace ClosurePipeline.Bootstrap

open Search (Step follow run visitIn mem_visitIn follow_visitIn Pair Reaches ReachesBy)

section Rules

variable {σ : Type} [Host σ]

/-- a module declares the class `c`, which it shows as `name` -/
inductive Declares (m : ModuleSummary) : String → String → Prop where
  | own {name : String} (h : m.declaresClass name = true) : Declares m name name
  /-- the first declaration marked `default` is a class -/
  | marked {d : Declaration} (hname : m.declaresClass "default" = false)
      (hd : m.declarations.find? (·.isDefault) = some d) (h : m.declaresClass d.name = true) :
    Declares m "default" d.name
  /-- no declaration is marked, and a clause exports the class as `default` -/
  | clause {c : String} (hname : m.declaresClass "default" = false) (hd : m.declarations.find? (·.isDefault) = none)
      (ht : m.localExportTarget? "default" = some c) (h : m.declaresClass c = true) : Declares m "default" c

/-- a module gives the class `c`, declared in `leaf`, under a name -/
inductive Derives (h : σ) : Path → String → Path → String → Prop where
  /-- its source file declares the class -/
  | own {path file : Path} {u : SourceUnit} {name c : String} (hfile : Host.sourceFile? h path = some file)
      (hunit : unit? h file = some u) (hclass : Declares u.summary name c) : Derives h path name file c
  /-- `export * from` a module that gives it -/
  | all {path file target leaf : Path} {u : SourceUnit} {name c s : String} {e : ExportDecl}
      (hfile : Host.sourceFile? h path = some file) (hunit : unit? h file = some u) (hexport : e ∈ u.summary.exports)
      (hspec : e.specifier = some s) (hclause : e.clause = .all) (htarget : resolve? h s file = some target)
      (hrest : Derives h target name leaf c) : Derives h path name leaf c
  /-- a named export from a directory that gives it -/
  | directory {path file target leaf : Path} {u : SourceUnit} {name c s : String} {e : ExportDecl}
      {bs : List ExportBinding} {b : ExportBinding} (hfile : Host.sourceFile? h path = some file)
      (hunit : unit? h file = some u) (hexport : e ∈ u.summary.exports) (hspec : e.specifier = some s)
      (hclause : e.clause = .named bs) (hb : b ∈ bs) (hname : b.exportedName = name)
      (htarget : resolve? h s file = some target) (hdir : Host.isDirectory h target = true)
      (hrest : Derives h target b.sourceName leaf c) : Derives h path name leaf c
  /-- a named export from a file that declares the class -/
  | file {path file target : Path} {u t : SourceUnit} {name c s : String} {e : ExportDecl} {bs : List ExportBinding}
      {b : ExportBinding} (hfile : Host.sourceFile? h path = some file) (hunit : unit? h file = some u)
      (hexport : e ∈ u.summary.exports) (hspec : e.specifier = some s) (hclause : e.clause = .named bs) (hb : b ∈ bs)
      (hname : b.exportedName = name) (htarget : resolve? h s file = some target)
      (hfileTarget : Host.isDirectory h target = false) (hunitTarget : unit? h target = some t)
      (hclass : Declares t.summary b.sourceName c) : Derives h path name target c

/-- an import of a module brings `symbol` into scope and leads to the class `c` in `leaf`; a namespace leads to its own
file, whatever that declares -/
inductive Leads (h : σ) (file : Path) (m : ModuleSummary) (symbol : String) : Path → String → Prop where
  | wildcard {d : ImportDecl} {b : ImportBinding} {path : Path} (hd : d ∈ m.imports) (hb : b ∈ d.bindings)
      (hlocal : b.localName = symbol) (hpath : resolve? h d.specifier file = some path) (hkind : b.kind = .wildcard) :
      Leads h file m symbol ((Host.sourceFile? h path).getD path) symbol
  | named {d : ImportDecl} {b : ImportBinding} {path leaf : Path} {c : String} (hd : d ∈ m.imports)
      (hb : b ∈ d.bindings) (hlocal : b.localName = symbol) (hpath : resolve? h d.specifier file = some path)
      (hkind : b.kind ≠ .wildcard) (hrest : Derives h path b.sourceName leaf c) : Leads h file m symbol leaf c

theorem declaredClass?_eq_some_iff {m : ModuleSummary} {name c : String} :
    declaredClass? m name = some c ↔ Declares m name c := by
  constructor
  · intro h
    unfold declaredClass? at h
    split_ifs at h with hown hdefault
    · cases h
      exact .own hown
    · subst hdefault
      have hname : m.declaresClass "default" = false := by simpa using hown
      cases hd : m.declarations.find? (·.isDefault) with
      | some d =>
        rw [hd] at h
        dsimp only at h
        split_ifs at h with hc
        cases h
        exact .marked hname hd hc
      | none =>
        rw [hd] at h
        obtain ⟨ht, hc⟩ := Option.filter_eq_some_iff.1 h
        exact .clause hname hd ht hc
  · intro h
    cases h with
    | own h => simp [declaredClass?, h]
    | marked hname hd h => simp [declaredClass?, hname, hd, h]
    | clause hname hd ht h => simp [declaredClass?, hname, hd, ht, Option.filter, h]

theorem Declares.declaresClass {m : ModuleSummary} {name c : String} (h : Declares m name c) :
    m.declaresClass c = true := by
  cases h <;> assumption

/-- a derived class stands in its leaf -/
theorem Derives.declaresClass {h : σ} {path leaf : Path} {name c : String} (hd : Derives h path name leaf c) :
    ∃ u, unit? h leaf = some u ∧ u.summary.declaresClass c = true := by
  induction hd with
  | own _ hunit hclass => exact ⟨_, hunit, hclass.declaresClass⟩
  | all _ _ _ _ _ _ _ ih => exact ih
  | directory _ _ _ _ _ _ _ _ _ _ ih => exact ih
  | file _ _ _ _ _ _ _ _ _ hunitTarget hclass => exact ⟨_, hunitTarget, hclass.declaresClass⟩

/-! ## The search as a search over steps -/

/-- the steps of a name in a clause -/
def bindingSteps (h : σ) (target : Path) (b : ExportBinding) : List (Step (Path × String)) :=
  if Host.isDirectory h target then visitIn (Host.sourceFile? h target) b.sourceName
  else (((unit? h target).bind fun u => declaredClass? u.summary b.sourceName).map fun c => .found (target, c)).toList

/-- the steps of the names in a clause -/
def bindingsSteps (h : σ) (target : Path) (name : String) (bs : List ExportBinding) : List (Step (Path × String)) :=
  (bs.filter fun b => b.exportedName = name).flatMap (bindingSteps h target)

/-- the steps of an export -/
def exportSteps (h : σ) (file : Path) (name : String) (e : ExportDecl) : List (Step (Path × String)) :=
  match e.specifier.bind fun s => resolve? h s file with
  | none => []
  | some target =>
    match e.clause with
    | .all => visitIn (Host.sourceFile? h target) name
    | .wildcard _ => []
    | .named bs => bindingsSteps h target name bs

/-- the steps of a name in a file -/
def steps (h : σ) (n : Pair) : List (Step (Path × String)) :=
  match unit? h n.1 with
  | none => []
  | some u =>
    match declaredClass? u.summary n.2 with
    | some c => [.found (n.1, c)]
    | none => u.summary.exports.flatMap (exportSteps h n.1 n.2)

variable {h : σ} {r : List Pair → Pair → Option (Path × String) × List Pair} {find : Visited → Path → String → Answer}

theorem searchBindings_eq_follow
    (hf : ∀ seen path name, find seen path name = follow r seen (visitIn (Host.sourceFile? h path) name))
    (target : Path) (name : String) (bs : List ExportBinding) :
    ∀ seen, searchBindings h find target name seen bs = follow r seen (bindingsSteps h target name bs) := by
  induction bs with
  | nil => intro seen; rfl
  | cons b bs ih =>
    intro seen
    rw [searchBindings, bindingsSteps]
    by_cases hb : b.exportedName = name
    · rw [if_pos hb, List.filter_cons_of_pos (by simpa using hb), List.flatMap_cons, Search.follow_append]
      unfold bindingSteps
      dsimp only
      by_cases hdir : Host.isDirectory h target
      · rw [if_pos hdir, if_pos hdir, hf]
        rcases follow r seen (visitIn (Host.sourceFile? h target) b.sourceName) with ⟨_ | x, seen'⟩
        · exact ih seen'
        · rfl
      · rw [if_neg hdir, if_neg hdir]
        cases (unit? h target).bind fun u => declaredClass? u.summary b.sourceName with
        | none => exact ih seen
        | some c => rfl
    · rw [if_neg hb, List.filter_cons_of_neg (by simpa using hb)]
      exact ih seen

theorem searchExports_eq_follow
    (hf : ∀ seen path name, find seen path name = follow r seen (visitIn (Host.sourceFile? h path) name)) (file : Path)
    (name : String) (es : List ExportDecl) :
    ∀ seen, searchExports h find file name seen es = follow r seen (es.flatMap (exportSteps h file name)) := by
  induction es with
  | nil => intro seen; rfl
  | cons e es ih =>
    intro seen
    rw [searchExports, List.flatMap_cons, Search.follow_append]
    cases ht : e.specifier.bind fun s => resolve? h s file with
    | none =>
      have hsteps : exportSteps h file name e = [] := by simp only [exportSteps, ht]
      rw [hsteps]
      exact ih seen
    | some target =>
      have hsteps : exportSteps h file name e = match e.clause with
          | .all => visitIn (Host.sourceFile? h target) name
          | .wildcard _ => []
          | .named bs => bindingsSteps h target name bs := by
        simp only [exportSteps, ht]
      rw [hsteps]
      cases e.clause with
      | all =>
        dsimp only
        rw [hf]
        rcases follow r seen (visitIn (Host.sourceFile? h target) name) with ⟨_ | x, seen'⟩
        · exact ih seen'
        · rfl
      | wildcard _ => exact ih seen
      | named bs =>
        dsimp only
        rw [searchBindings_eq_follow hf target name bs seen]
        rcases follow r seen (bindingsSteps h target name bs) with ⟨_ | x, seen'⟩
        · exact ih seen'
        · rfl

/-- **The search for an export is a search over steps.** -/
theorem search_eq_follow (h : σ) (fuel : Nat) : ∀ seen path name,
    search h fuel seen path name = follow (run (steps h) fuel) seen (visitIn (Host.sourceFile? h path) name) := by
  induction fuel with
  | zero =>
    intro seen path name
    rw [follow_visitIn]
    cases Host.sourceFile? h path <;> rfl
  | succ fuel ih =>
    intro seen path name
    rw [follow_visitIn, search]
    cases Host.sourceFile? h path with
    | none => rfl
    | some file =>
      simp only [run]
      have hseen : isVisited seen file name = Search.isSeen seen (file, name) := rfl
      rw [hseen]
      split_ifs
      · rfl
      · cases hu : unit? h file with
        | none => simp only [steps, hu, follow]
        | some u =>
          cases hc : declaredClass? u.summary name with
          | some c => simp only [steps, hu, hc, follow]
          | none =>
            simp only [steps, hu, hc]
            exact searchExports_eq_follow ih file name _ _

/-! ## Steps and rules -/

theorem mem_bindingSteps {h : σ} {target : Path} {b : ExportBinding} {s : Step (Path × String)} :
    s ∈ bindingSteps h target b ↔
      (Host.isDirectory h target = true ∧ s ∈ visitIn (Host.sourceFile? h target) b.sourceName) ∨
      (Host.isDirectory h target = false ∧ ∃ t c, unit? h target = some t ∧ Declares t.summary b.sourceName c ∧
        s = .found (target, c)) := by
  unfold bindingSteps
  by_cases hdir : Host.isDirectory h target
  · simp [hdir]
  · simp only [hdir, Bool.false_eq_true, if_false, false_and, false_or, Option.mem_toList, Option.map_eq_some_iff,
      Option.bind_eq_some_iff, declaredClass?_eq_some_iff]
    constructor
    · rintro ⟨c, ⟨t, ht, hc⟩, rfl⟩
      exact ⟨trivial, t, c, ht, hc, rfl⟩
    · rintro ⟨-, t, c, ht, hc, rfl⟩
      exact ⟨c, ⟨t, ht, hc⟩, rfl⟩

theorem mem_exportSteps {h : σ} {file : Path} {name : String} {e : ExportDecl} {s : Step (Path × String)} :
    s ∈ exportSteps h file name e ↔ ∃ spec target, e.specifier = some spec ∧ resolve? h spec file = some target ∧
      ((e.clause = .all ∧ s ∈ visitIn (Host.sourceFile? h target) name) ∨
        ∃ bs b, e.clause = .named bs ∧ b ∈ bs ∧ b.exportedName = name ∧ s ∈ bindingSteps h target b) := by
  unfold exportSteps
  cases ht : e.specifier.bind fun s => resolve? h s file with
  | none =>
    simp only [List.not_mem_nil, false_iff]
    rintro ⟨spec, target, hspec, htarget, -⟩
    simp [hspec, htarget] at ht
  | some target =>
    obtain ⟨spec, hspec, htarget⟩ := Option.bind_eq_some_iff.1 ht
    constructor
    · intro hs
      refine ⟨spec, target, hspec, htarget, ?_⟩
      cases hc : e.clause with
      | all =>
        rw [hc] at hs
        exact Or.inl ⟨rfl, hs⟩
      | wildcard n =>
        rw [hc] at hs
        cases hs
      | named bs =>
        rw [hc] at hs
        obtain ⟨b, hb, hs⟩ := List.mem_flatMap.1 hs
        obtain ⟨hb, hname⟩ := List.mem_filter.1 hb
        exact Or.inr ⟨bs, b, rfl, hb, by simpa using hname, hs⟩
    · rintro ⟨spec', target', hspec', htarget', hs⟩
      have e1 : spec = spec' := Option.some.inj (hspec ▸ hspec')
      subst e1
      have e2 : target = target' := Option.some.inj (htarget ▸ htarget')
      subst e2
      rcases hs with ⟨hc, hs⟩ | ⟨bs, b, hc, hb, hname, hs⟩
      · simp only [hc]
        exact hs
      · simp only [hc]
        exact List.mem_flatMap.2 ⟨b, List.mem_filter.2 ⟨hb, by simpa using hname⟩, hs⟩

theorem mem_steps {h : σ} {n : Pair} {s : Step (Path × String)} :
    s ∈ steps h n ↔ ∃ u, unit? h n.1 = some u ∧ ((∃ c, declaredClass? u.summary n.2 = some c ∧ s = .found (n.1, c)) ∨
      (declaredClass? u.summary n.2 = none ∧ ∃ e ∈ u.summary.exports, s ∈ exportSteps h n.1 n.2 e)) := by
  unfold steps
  cases unit? h n.1 with
  | none => simp
  | some u =>
    cases hc : declaredClass? u.summary n.2 with
    | some c => simp [hc]
    | none => simp [hc]

/-- what steps reach is derived -/
theorem derives_of_reaches {h : σ} {n : Pair} {r : Path × String} (hr : Reaches (steps h) n r) :
    ∀ {path}, Host.sourceFile? h path = some n.1 → Derives h path n.2 r.1 r.2 := by
  induction hr with
  | found hf =>
    intro path hfile
    obtain ⟨u, hu, ⟨c, hc, e⟩ | ⟨-, e, he, hs⟩⟩ := mem_steps.1 hf
    · cases e
      exact .own hfile hu (declaredClass?_eq_some_iff.1 hc)
    · obtain ⟨spec, target, hspec, htarget, ⟨-, hs⟩ | ⟨bs, b, hclause, hb, hname, hs⟩⟩ := mem_exportSteps.1 hs
      · obtain ⟨_, -, e⟩ := mem_visitIn.1 hs
        cases e
      · rcases mem_bindingSteps.1 hs with ⟨-, hs⟩ | ⟨hdir, t, c, ht, hclass, e⟩
        · obtain ⟨_, -, e⟩ := mem_visitIn.1 hs
          cases e
        · cases e
          exact .file hfile hu he hspec hclause hb hname htarget hdir ht hclass
  | visit hv _ ih =>
    intro path hfile
    obtain ⟨u, hu, ⟨c, -, e⟩ | ⟨-, e, he, hs⟩⟩ := mem_steps.1 hv
    · cases e
    · obtain ⟨spec, target, hspec, htarget, ⟨hclause, hs⟩ | ⟨bs, b, hclause, hb, hname, hs⟩⟩ := mem_exportSteps.1 hs
      · obtain ⟨next, hnext, e⟩ := mem_visitIn.1 hs
        cases e
        exact .all hfile hu he hspec hclause htarget (ih hnext)
      · rcases mem_bindingSteps.1 hs with ⟨hdir, hs⟩ | ⟨-, t, c, -, -, e⟩
        · obtain ⟨next, hnext, e⟩ := mem_visitIn.1 hs
          cases e
          exact .directory hfile hu he hspec hclause hb hname htarget hdir (ih hnext)
        · cases e

/-- a step of an export is a step of its file, unless the file declares the class itself; some class is reached either
way -/
theorem exists_reaches_of_export {h : σ} {file : Path} {name : String} {u : SourceUnit} {e : ExportDecl}
    (hunit : unit? h file = some u) (he : e ∈ u.summary.exports) {r : Path × String}
    (hr : ReachesBy (steps h) (exportSteps h file name e) r) :
    ∃ r, Reaches (steps h) (file, name) r := by
  cases hc : declaredClass? u.summary name with
  | some c => exact ⟨(file, c), .found (mem_steps.2 ⟨u, hunit, Or.inl ⟨c, hc, rfl⟩⟩)⟩
  | none =>
    have hsteps : ∀ s ∈ exportSteps h file name e, s ∈ steps h (file, name) := by
      intro s hs
      exact mem_steps.2 ⟨u, hunit, Or.inr ⟨hc, e, he, hs⟩⟩
    rcases hr with hr | ⟨m, hm, hr⟩
    · exact ⟨r, .found (hsteps _ hr)⟩
    · exact ⟨r, .visit (hsteps _ hm) hr⟩

/-- where a class is derived, steps reach one -/
theorem exists_reaches_of_derives {h : σ} {path leaf : Path} {name c : String} (hd : Derives h path name leaf c) :
    ∃ file, Host.sourceFile? h path = some file ∧ ∃ r, Reaches (steps h) (file, name) r := by
  induction hd with
  | @own _ file u _ c hfile hunit hclass =>
    exact ⟨file, hfile, (file, c),
      .found (mem_steps.2 ⟨u, hunit, Or.inl ⟨c, declaredClass?_eq_some_iff.2 hclass, rfl⟩⟩)⟩
  | @all _ file target _ _ name _ s e hfile hunit he hspec hclause htarget _ ih =>
    obtain ⟨next, hnext, r, hr⟩ := ih
    have hs : .visit (next, name) ∈ exportSteps h file name e :=
      mem_exportSteps.2 ⟨s, target, hspec, htarget, Or.inl ⟨hclause, mem_visitIn.2 ⟨next, hnext, rfl⟩⟩⟩
    exact ⟨file, hfile, exists_reaches_of_export hunit he (Or.inr ⟨_, hs, hr⟩)⟩
  | @directory _ file target _ _ name _ s e bs b hfile hunit he hspec hclause hb hname htarget hdir _ ih =>
    obtain ⟨next, hnext, r, hr⟩ := ih
    have hb' : .visit (next, b.sourceName) ∈ bindingSteps h target b :=
      mem_bindingSteps.2 (Or.inl ⟨hdir, mem_visitIn.2 ⟨next, hnext, rfl⟩⟩)
    have hs : .visit (next, b.sourceName) ∈ exportSteps h file name e :=
      mem_exportSteps.2 ⟨s, target, hspec, htarget, Or.inr ⟨bs, b, hclause, hb, hname, hb'⟩⟩
    exact ⟨file, hfile, exists_reaches_of_export hunit he (Or.inr ⟨_, hs, hr⟩)⟩
  | @file _ file target _ t name c s e bs b hfile hunit he hspec hclause hb hname htarget hdir ht hclass =>
    have hb' : .found (target, c) ∈ bindingSteps h target b := mem_bindingSteps.2 (Or.inr ⟨hdir, t, c, ht, hclass, rfl⟩)
    have hs : .found (target, c) ∈ exportSteps h file name e :=
      mem_exportSteps.2 ⟨s, target, hspec, htarget, Or.inr ⟨bs, b, hclause, hb, hname, hb'⟩⟩
    exact ⟨file, hfile, exists_reaches_of_export hunit he (Or.inl hs)⟩

theorem exists_reachesBy_visitIn_iff {h : σ} {path : Path} {name : String} :
    (∃ r, ReachesBy (steps h) (visitIn (Host.sourceFile? h path) name) r) ↔ ∃ leaf c, Derives h path name leaf c := by
  constructor
  · rintro ⟨r, hr | ⟨m, hm, hr⟩⟩
    · obtain ⟨_, -, e⟩ := mem_visitIn.1 hr
      cases e
    · obtain ⟨file, hfile, e⟩ := mem_visitIn.1 hm
      cases e
      exact ⟨r.1, r.2, derives_of_reaches hr hfile⟩
  · rintro ⟨leaf, c, hd⟩
    obtain ⟨file, hfile, r, hr⟩ := exists_reaches_of_derives hd
    exact ⟨r, Or.inr ⟨(file, name), mem_visitIn.2 ⟨file, hfile, rfl⟩, hr⟩⟩

/-- **What the search finds is derived.** -/
theorem derives_of_search {h : σ} {fuel : Nat} {path : Path} {name : String} {r : Path × String}
    (hr : (search h fuel [] path name).1 = some r) :
    Derives h path name r.1 r.2 := by
  rw [search_eq_follow] at hr
  have hr' : follow (run (steps h) fuel) [] (visitIn (Host.sourceFile? h path) name) =
      (some r, (follow (run (steps h) fuel) [] (visitIn (Host.sourceFile? h path) name)).2) :=
    Prod.ext hr rfl
  rcases Search.reachesBy_of_follow hr' with hf | ⟨m, hm, hreach⟩
  · obtain ⟨_, -, e⟩ := mem_visitIn.1 hf
    cases e
  · obtain ⟨file, hfile, e⟩ := mem_visitIn.1 hm
    cases e
    exact derives_of_reaches hreach hfile

end Rules

/-! ## A host in memory -/

section Memory

variable {h : MemoryHost}

theorem resolve?_normal {specifier : String} {file target : Path} (hr : resolve? h specifier file = some target) :
    target.normalize = target := by
  obtain ⟨path, -, rfl⟩ := Option.map_eq_some_iff.1 hr
  exact path.normalize_normalize

theorem mem_knownFiles_of_visitIn {path : Path} {name : String} {m : Pair} (hp : path.normalize = path)
    (hm : (.visit m : Step (Path × String)) ∈ visitIn (Host.sourceFile? h path) name) :
    m.1 ∈ h.knownFiles ∧ m.2 = name := by
  obtain ⟨file, hfile, e⟩ := mem_visitIn.1 hm
  cases e
  obtain ⟨hnormal, hexists⟩ := MemoryHost.sourceFile?_normal hp hfile
  exact ⟨MemoryHost.mem_knownFiles hnormal hexists, rfl⟩

/-- the pairs a search for a name can meet -/
def allPairs (h : MemoryHost) (name : String) : List Pair := h.pairs (name :: h.knownNames)

theorem closed_allPairs (h : MemoryHost) (name : String) : Search.Closed (steps h) (allPairs h name) := by
  refine ⟨fun n hn m hm => ?_, fun n hn => MemoryHost.normal_of_mem_knownFiles (MemoryHost.mem_pairs.1 hn).1⟩
  obtain ⟨u, hu, ⟨c, -, e⟩ | ⟨-, e, he, hs⟩⟩ := mem_steps.1 hm
  · cases e
  · obtain ⟨spec, target, -, htarget, ⟨-, hs⟩ | ⟨bs, b, hclause, hb, -, hs⟩⟩ := mem_exportSteps.1 hs
    · -- `export *` keeps the name
      obtain ⟨hfile, hname⟩ := mem_knownFiles_of_visitIn (resolve?_normal htarget) hs
      exact MemoryHost.mem_pairs.2 ⟨hfile, hname ▸ (MemoryHost.mem_pairs.1 hn).2⟩
    · rcases mem_bindingSteps.1 hs with ⟨-, hs⟩ | ⟨-, _, _, -, -, e⟩
      · -- a clause goes on with a name that is written in the file
        obtain ⟨hfile, hname⟩ := mem_knownFiles_of_visitIn (resolve?_normal htarget) hs
        obtain ⟨text, hread, rfl⟩ := Option.map_eq_some_iff.1 hu
        have hnamed := (ModuleSummary.namesWithin_ofText text).exports e he bs hclause b hb
        have hknown := MemoryHost.mem_knownNames hread hnamed b.sourceName List.mem_cons_self
        exact MemoryHost.mem_pairs.2 ⟨hfile, hname ▸ List.mem_cons_of_mem _ hknown⟩
      · cases e

theorem length_allPairs_le (h : MemoryHost) (name : String) : (allPairs h name).length ≤ Host.pairBound h 0 := by
  refine MemoryHost.length_pairs_le ?_
  have := h.length_knownNames_le
  rw [List.length_cons]
  omega

/-- **The search finds a class exactly if one is derived.** -/
theorem isSome_search_iff {path : Path} (hp : path.normalize = path) (name : String) :
    (search h (Host.pairBound h 0) [] path name).1.isSome = true ↔ ∃ leaf c, Derives h path name leaf c := by
  rw [search_eq_follow, ← exists_reachesBy_visitIn_iff]
  refine Search.isSome_follow_iff (closed_allPairs h name) (length_allPairs_le h name) fun m hm => ?_
  obtain ⟨hfile, hname⟩ := mem_knownFiles_of_visitIn hp hm
  exact MemoryHost.mem_pairs.2 ⟨hfile, hname ▸ List.mem_cons_self⟩

/-! ## Imports -/

theorem leads_of_followImport {file : Path} {m : ModuleSummary} {symbol : String} {d : ImportDecl} (hd : d ∈ m.imports)
    {r : Path × String} (hr : followImport h file symbol d = some r) : Leads h file m symbol r.1 r.2 := by
  unfold followImport at hr
  split at hr
  · cases hr
  · split at hr
    · cases hr
    · rename_i path hpath
      obtain ⟨b, hb, hr⟩ := List.exists_of_findSome?_eq_some hr
      obtain ⟨hb, hlocal⟩ := List.mem_filter.1 hb
      have hlocal : b.localName = symbol := by simpa using hlocal
      unfold followBinding at hr
      split_ifs at hr with hkind
      · cases hr
        exact .wildcard hd hb hlocal hpath (by simpa using hkind)
      · exact .named hd hb hlocal hpath (by simpa using hkind) (derives_of_search hr)

theorem isSome_followImport {file : Path} {symbol : String} {d : ImportDecl} {b : ImportBinding} {path : Path}
    (hb : b ∈ d.bindings) (hlocal : b.localName = symbol) (hpath : resolve? h d.specifier file = some path)
    (hf : (followBinding h path symbol b).isSome = true) :
    (followImport h file symbol d).isSome = true := by
  have hmem : b ∈ d.bindings.filter (·.localName == symbol) := List.mem_filter.2 ⟨hb, by simpa using hlocal⟩
  unfold followImport
  split
  · rename_i hnil
    rw [hnil] at hmem
    cases hmem
  · rw [hpath]
    exact List.findSome?_isSome_iff.2 ⟨b, hmem, hf⟩

/-- **The imports give a class exactly if one leads to it.** -/
theorem isSome_findSome?_followImport_iff {file : Path} {m : ModuleSummary} {symbol : String} :
    (m.imports.findSome? (followImport h file symbol)).isSome = true ↔ ∃ leaf c, Leads h file m symbol leaf c := by
  constructor
  · intro hsome
    obtain ⟨r, hr⟩ := Option.isSome_iff_exists.1 hsome
    obtain ⟨d, hd, hr⟩ := List.exists_of_findSome?_eq_some hr
    exact ⟨r.1, r.2, leads_of_followImport hd hr⟩
  · rintro ⟨leaf, c, hl⟩
    cases hl with
    | wildcard hd hb hlocal hpath hkind =>
      exact List.findSome?_isSome_iff.2 ⟨_, hd, isSome_followImport hb hlocal hpath (by simp [followBinding, hkind])⟩
    | @named d b path leaf c hd hb hlocal hpath hkind hrest =>
      have hsearch := (isSome_search_iff (resolve?_normal hpath) b.sourceName).2 ⟨leaf, c, hrest⟩
      exact List.findSome?_isSome_iff.2
        ⟨_, hd, isSome_followImport hb hlocal hpath (by simpa [followBinding, hkind] using hsearch)⟩

end Memory

/-! ## Bootstrap calls -/

/-- a call that starts an application with a bare name -/
def Starts (call : CallSite) (name : String) : Prop :=
  (call.method = "bootstrapModule" ∨ call.method = "bootstrapModuleFactory") ∧
    call.firstArgument = some (.identifier name)

/-- the call starts an application with some bare name -/
def isStart (call : CallSite) : Bool :=
  (call.method == "bootstrapModule" || call.method == "bootstrapModuleFactory") && match call.firstArgument with
    | some (.identifier _) => true
    | _ => false

theorem isStart_iff {call : CallSite} : isStart call = true ↔ ∃ name, Starts call name := by
  unfold isStart Starts
  rcases call.firstArgument with _ | ⟨name⟩ | _ <;> simp

/-- one call alone starts the application, with this name -/
def OnlyStart (m : ModuleSummary) (name : String) : Prop := ∃ call, m.calls.filter isStart = [call] ∧ Starts call name

/-- the bare name a call starts an application with -/
def startName? (call : CallSite) : Option String :=
  if methods.contains call.method then
    match call.firstArgument with
    | some (.identifier name) => some name
    | _ => none
  else none

theorem startName?_eq_some_iff {call : CallSite} {name : String} : startName? call = some name ↔ Starts call name := by
  unfold startName? Starts methods
  rcases call.firstArgument with _ | ⟨n⟩ | _ <;> simp

/-- the names are those of the starting calls, in order -/
theorem forall₂_starts (calls : List CallSite) :
    List.Forall₂ Starts (calls.filter isStart) (calls.filterMap startName?) := by
  induction calls with
  | nil => exact .nil
  | cons call calls ih =>
    by_cases hstart : isStart call = true
    · obtain ⟨name, hname⟩ := isStart_iff.1 hstart
      rw [List.filter_cons_of_pos hstart, List.filterMap_cons_some (startName?_eq_some_iff.2 hname)]
      exact .cons hname ih
    · have hnone : startName? call = none := by
        by_contra hne
        obtain ⟨name, hname⟩ := Option.ne_none_iff_exists'.1 hne
        exact hstart (isStart_iff.2 ⟨name, startName?_eq_some_iff.1 hname⟩)
      rw [List.filter_cons_of_neg hstart, List.filterMap_cons_none hnone]
      exact ih

theorem length_candidates (m : ModuleSummary) : (candidates m).length = (m.calls.filter isStart).length :=
  (forall₂_starts m.calls).length_eq.symm

theorem candidates_eq_singleton_iff {m : ModuleSummary} {name : String} : candidates m = [name] ↔ OnlyStart m name := by
  have hall : List.Forall₂ Starts (m.calls.filter isStart) (candidates m) := forall₂_starts m.calls
  constructor
  · intro h
    rw [h] at hall
    obtain ⟨call, rest, hstart, hrest, hcalls⟩ := List.forall₂_cons_right_iff.1 hall
    cases hrest
    exact ⟨call, hcalls, hstart⟩
  · rintro ⟨call, hcalls, hstart⟩
    rw [hcalls] at hall
    obtain ⟨name', rest, hstart', hrest, hnames⟩ := List.forall₂_cons_left_iff.1 hall
    cases hrest
    have hname : name' = name := by
      have := hstart'.2.symm.trans hstart.2
      simpa using this
    rw [hnames, hname]

/-! ## The entry -/

/-- the summary of the main file -/
def IsMain (h : MemoryHost) (main : Path) (m : ModuleSummary) : Prop :=
  ∃ text, Host.read? h main = some text ∧ m = .ofText text

theorem entry_of_none {h : MemoryHost} {main : Path} (hread : Host.read? h main = none) :
    entry h main = .error (.fileNotFound main) := by
  simp only [entry, unit?, MemoryHost.read?_canonical, hread, Option.map_none]

theorem entry_of_isMain {h : MemoryHost} {main : Path} {m : ModuleSummary} (hm : IsMain h main m) :
    entry h main = match candidates m with
      | [symbol] =>
        match m.imports.findSome? (followImport h main.normalize symbol) with
        | some (leaf, name) => .ok ⟨leaf.withoutSourceEnding, name⟩
        | none => .error (.unresolvedSymbol main symbol)
      | found => .error (.ambiguousBootstrap main found.length) := by
  obtain ⟨text, hread, rfl⟩ := hm
  simp only [entry, unit?, MemoryHost.read?_canonical, hread, Option.map_some]
  rfl

theorem entry_of_many {h : MemoryHost} {main : Path} {m : ModuleSummary} (hm : IsMain h main m)
    (hn : (m.calls.filter isStart).length ≠ 1) :
    entry h main = .error (.ambiguousBootstrap main (m.calls.filter isStart).length) := by
  rw [← length_candidates] at hn
  rw [entry_of_isMain hm, ← length_candidates]
  split
  · rename_i hone
    rw [hone] at hn
    exact absurd rfl hn
  · rfl

theorem entry_of_onlyStart {h : MemoryHost} {main : Path} {m : ModuleSummary} {symbol : String} (hm : IsMain h main m)
    (hs : OnlyStart m symbol) :
    entry h main = match m.imports.findSome? (followImport h main.normalize symbol) with
      | some (leaf, name) => .ok ⟨leaf.withoutSourceEnding, name⟩
      | none => .error (.unresolvedSymbol main symbol) := by
  rw [entry_of_isMain hm, candidates_eq_singleton_iff.2 hs]

/-- what the entry is to be, by the number of calls that start the application and by where their name leads -/
inductive Answers (h : MemoryHost) (main : Path) : Except Error EntryReference → Prop where
  | unread (hread : Host.read? h main = none) : Answers h main (.error (.fileNotFound main))
  | ambiguous {m : ModuleSummary} (hm : IsMain h main m) (hn : (m.calls.filter isStart).length ≠ 1) :
      Answers h main (.error (.ambiguousBootstrap main (m.calls.filter isStart).length))
  | unresolved {m : ModuleSummary} {symbol : String} (hm : IsMain h main m) (hs : OnlyStart m symbol)
      (hl : ∀ leaf c, ¬ Leads h main.normalize m symbol leaf c) :
    Answers h main (.error (.unresolvedSymbol main symbol))
  | resolved {m : ModuleSummary} {symbol c : String} {leaf : Path} (hm : IsMain h main m) (hs : OnlyStart m symbol)
      (hl : Leads h main.normalize m symbol leaf c) : Answers h main (.ok ⟨leaf.withoutSourceEnding, c⟩)

theorem answers_entry (h : MemoryHost) (main : Path) : Answers h main (entry h main) := by
  cases hread : Host.read? h main with
  | none =>
    rw [entry_of_none hread]
    exact .unread hread
  | some text =>
    have hm : IsMain h main (.ofText text) := ⟨text, hread, rfl⟩
    by_cases hn : ((ModuleSummary.ofText text).calls.filter isStart).length = 1
    · obtain ⟨symbol, hsymbol⟩ := List.length_eq_one_iff.1 ((length_candidates _).trans hn)
      have hs := candidates_eq_singleton_iff.1 hsymbol
      rw [entry_of_onlyStart hm hs]
      split
      · rename_i leaf name hfound
        obtain ⟨d, hd, hr⟩ := List.exists_of_findSome?_eq_some hfound
        exact .resolved hm hs (leads_of_followImport hd hr)
      · rename_i hnone
        refine .unresolved hm hs fun leaf c hl => ?_
        have hsome := isSome_findSome?_followImport_iff.2 ⟨leaf, c, hl⟩
        rw [hnone] at hsome
        cases hsome
    · rw [entry_of_many hm hn]
      exact .ambiguous hm hn

theorem isOk_entry_of_leads {h : MemoryHost} {main leaf : Path} {m : ModuleSummary} {symbol c : String}
    (hm : IsMain h main m) (hs : OnlyStart m symbol) (hl : Leads h main.normalize m symbol leaf c) :
    ∃ e, entry h main = .ok e := by
  obtain ⟨r, hr⟩ := Option.isSome_iff_exists.1 (isSome_findSome?_followImport_iff.2 ⟨leaf, c, hl⟩)
  rw [entry_of_onlyStart hm hs, hr]
  exact ⟨_, rfl⟩

theorem entry_of_not_leads {h : MemoryHost} {main : Path} {m : ModuleSummary} {symbol : String} (hm : IsMain h main m)
    (hs : OnlyStart m symbol) (hl : ¬ ∃ leaf c, Leads h main.normalize m symbol leaf c) :
    entry h main = .error (.unresolvedSymbol main symbol) := by
  have hnone := (not_congr isSome_findSome?_followImport_iff).2 hl
  rw [entry_of_onlyStart hm hs, Option.not_isSome_iff_eq_none.1 hnone]

/-- the symbol is bound to a namespace -/
def BindsNamespace (m : ModuleSummary) (symbol : String) : Prop :=
  ∃ d ∈ m.imports, ∃ b ∈ d.bindings, b.localName = symbol ∧ b.kind = .wildcard

theorem Leads.declaresClass {h : MemoryHost} {file leaf : Path} {m : ModuleSummary} {symbol c : String}
    (hl : Leads h file m symbol leaf c) :
    (c = symbol ∧ BindsNamespace m symbol) ∨ ∃ u, unit? h leaf = some u ∧ u.summary.declaresClass c = true := by
  cases hl with
  | wildcard hd hb hlocal _ hkind => exact Or.inl ⟨rfl, _, hd, _, hb, hlocal, hkind⟩
  | named _ _ _ _ _ hrest => exact Or.inr hrest.declaresClass

/-- **The entry is sound and complete.** Each answer has its exact condition, for every host in memory and every main
file. An entry names the file without its ending and the class: one that the file declares, or for a namespace the name
itself. -/
theorem entry_sound_and_complete (h : MemoryHost) (main : Path) :
    (entry h main = .error (.fileNotFound main) ↔ Host.read? h main = none) ∧
    (∀ n, entry h main = .error (.ambiguousBootstrap main n) ↔
      n ≠ 1 ∧ ∃ m, IsMain h main m ∧ (m.calls.filter isStart).length = n) ∧
    ((∃ e, entry h main = .ok e) ↔
      ∃ m symbol, IsMain h main m ∧ OnlyStart m symbol ∧ ∃ leaf c, Leads h main.normalize m symbol leaf c) ∧
    (∀ symbol, entry h main = .error (.unresolvedSymbol main symbol) ↔
      ∃ m, IsMain h main m ∧ OnlyStart m symbol ∧ ¬ ∃ leaf c, Leads h main.normalize m symbol leaf c) ∧
    ∀ e, entry h main = .ok e → ∃ m symbol leaf, IsMain h main m ∧ OnlyStart m symbol ∧
      Leads h main.normalize m symbol leaf e.symbolName ∧ e.modulePath = leaf.withoutSourceEnding ∧
      ((e.symbolName = symbol ∧ BindsNamespace m symbol) ∨ ∃ u, unit? h leaf = some u ∧
        u.summary.declaresClass e.symbolName = true) := by
  have hanswer := answers_entry h main
  refine ⟨⟨fun e => ?_, entry_of_none⟩, fun n => ⟨fun e => ?_, ?_⟩, ⟨?_, ?_⟩, fun symbol => ⟨fun e => ?_, ?_⟩,
    fun e he => ?_⟩
  · rw [e] at hanswer
    cases hanswer with
    | unread hread => exact hread
  · rw [e] at hanswer
    cases hanswer with
    | ambiguous hm hn => exact ⟨hn, _, hm, rfl⟩
  · rintro ⟨hn, m, hm, rfl⟩
    exact entry_of_many hm hn
  · rintro ⟨e, he⟩
    rw [he] at hanswer
    cases hanswer with
    | resolved hm hs hl => exact ⟨_, _, hm, hs, _, _, hl⟩
  · rintro ⟨m, symbol, hm, hs, leaf, c, hl⟩
    exact isOk_entry_of_leads hm hs hl
  · rw [e] at hanswer
    cases hanswer with
    | unresolved hm hs hl => exact ⟨_, hm, hs, fun ⟨leaf, c, hleads⟩ => hl leaf c hleads⟩
  · rintro ⟨m, hm, hs, hl⟩
    exact entry_of_not_leads hm hs hl
  · rw [he] at hanswer
    cases hanswer with
    | resolved hm hs hl => exact ⟨_, _, _, hm, hs, hl, rfl, hl.declaresClass⟩

/-! ### An entry behind exports -/

/-- a main file that starts the application of a directory -/
def startText : String := "import { App } from './a';\np.bootstrapModule(App);\n"

/-- the index of the directory passes on all of a file, which passes on a class under the name that the main file has
for it -/
def application : MemoryHost :=
  .ofFiles [(⟨"/m.ts"⟩, startText), (⟨"/a/index.ts"⟩, "export * from './b';\n"),
    (⟨"/a/b.ts"⟩, "export { Root as App } from './r';\n"), (⟨"/a/r.ts"⟩, "class Root \x7b\x7d\n")]

theorem unit?_of_read {h : MemoryHost} {file : Path} {text : String} (hread : Host.read? h file = some text) :
    unit? h file = some (.parse file text) := by
  rw [unit?, hread, Option.map_some]

/-- the directory gives the class, by its index and by the exports of both files -/
theorem derives_application : Derives application ⟨"/a"⟩ "App" ⟨"/a/r.ts"⟩ "Root" := by
  have hall : ⟨some "./b", .all, 0⟩ ∈ (ModuleSummary.ofText "export * from './b';\n").exports := by decide +kernel
  have hnamed : ⟨some "./r", .named [⟨"App", "Root", some "./r"⟩], 0⟩ ∈
      (ModuleSummary.ofText "export { Root as App } from './r';\n").exports := by
    decide +kernel
  have hclass : (ModuleSummary.ofText "class Root \x7b\x7d\n").declaresClass "Root" = true := by decide +kernel
  obtain ⟨hindex, hreadIndex, hpart⟩ : Host.sourceFile? application ⟨"/a"⟩ = some ⟨"/a/index.ts"⟩ ∧
      Host.read? application ⟨"/a/index.ts"⟩ = some "export * from './b';\n" ∧
      resolve? application "./b" ⟨"/a/index.ts"⟩ = some ⟨"/a/b.ts"⟩ := by
    decide +kernel
  obtain ⟨hfile, hreadPart, hroot, hnodir, hreadRoot⟩ : Host.sourceFile? application ⟨"/a/b.ts"⟩ = some ⟨"/a/b.ts"⟩ ∧
      Host.read? application ⟨"/a/b.ts"⟩ = some "export { Root as App } from './r';\n" ∧
      resolve? application "./r" ⟨"/a/b.ts"⟩ = some ⟨"/a/r.ts"⟩ ∧ Host.isDirectory application ⟨"/a/r.ts"⟩ = false ∧
      Host.read? application ⟨"/a/r.ts"⟩ = some "class Root \x7b\x7d\n" := by
    decide +kernel
  refine .all hindex (unit?_of_read hreadIndex) hall rfl rfl hpart ?_
  exact .file hfile (unit?_of_read hreadPart) hnamed rfl rfl List.mem_cons_self rfl hroot hnodir
    (unit?_of_read hreadRoot) (.own hclass)

/-- the entry is the class in its file, without the ending -/
theorem entry_application : entry application ⟨"/m.ts"⟩ = .ok ⟨⟨"/a/r"⟩, "Root"⟩ ∧
    ∃ m, IsMain application ⟨"/m.ts"⟩ m ∧ OnlyStart m "App" ∧
      Leads application ⟨"/m.ts"⟩ m "App" ⟨"/a/r.ts"⟩ "Root" := by
  have hstart : OnlyStart (.ofText startText) "App" := candidates_eq_singleton_iff.1 (by decide +kernel)
  have himport : ⟨"./a", [⟨"App", "App", "./a", .named⟩], 0⟩ ∈ (ModuleSummary.ofText startText).imports := by
    decide +kernel
  obtain ⟨hread, hdirectory, hnormal⟩ : Host.read? application ⟨"/m.ts"⟩ = some startText ∧
      resolve? application "./a" ⟨"/m.ts"⟩ = some ⟨"/a"⟩ ∧ Path.normalize ⟨"/m.ts"⟩ = ⟨"/m.ts"⟩ := by
    decide +kernel
  have hmain : IsMain application ⟨"/m.ts"⟩ (.ofText startText) := ⟨_, hread, rfl⟩
  have hleads : Leads application ⟨"/m.ts"⟩ (.ofText startText) "App" ⟨"/a/r.ts"⟩ "Root" :=
    .named himport List.mem_cons_self rfl hdirectory (by decide) derives_application
  obtain ⟨-, -, hfound, -⟩ := entry_sound_and_complete application ⟨"/m.ts"⟩
  obtain ⟨e, he⟩ := hfound.2 ⟨_, _, hmain, hstart, _, _, hnormal.symm ▸ hleads⟩
  have hvalue : (entry application ⟨"/m.ts"⟩).toOption = some ⟨⟨"/a/r"⟩, "Root"⟩ := by decide +kernel
  rw [he] at hvalue ⊢
  exact ⟨congrArg Except.ok (Option.some.inj hvalue), _, hmain, hstart, hleads⟩

end ClosurePipeline.Bootstrap
