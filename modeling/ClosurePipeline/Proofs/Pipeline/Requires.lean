/-
Names that outputs require. An output requires a module under the name that its specifier has by text alone; the
manifest lists a module under the name of the output. The two are names of one file exactly if the place of the
specifier and the file it leads to agree without their endings. So a specifier of a directory is never the name of the
index file it leads to (`directory_specifier_misses_module`).

- `at_outputPath`: where the output of a source below the root is, below the output directory;
- `moduleName_output`, `moduleName_specifier`: the name of an output and the name of a specifier, by names below the
  root;
- `entry?_of_emission`, `read?_of_emission`: what a run lists for a unit, and the module it writes;
- `required_name_matches_iff`: the whole of it, for a run of a new pipeline.
-/
import Mathlib.Tactic
import ClosurePipeline.Proofs.Host.Probing
import ClosurePipeline.Proofs.Pipeline.Externs
import ClosurePipeline.Proofs.Pipeline.Rerun

namespace ClosurePipeline

open ClosurePipeline.Path (At ofNames bareName NoDeclaration)

/-! ## Outputs of sources below the root -/

namespace Emitter

/-- outputs are scripts, wherever they are written -/
theorem isDeclarationFile_output (e : Emitter) (source : Path) :
    (e.outputPath source).normalize.isDeclarationFile = false := by
  obtain ⟨above, stem, hside⟩ := exists_outputs e source
  have hstack := Path.stack_of_stretch hside.output
  rw [← Path.stack_normalize] at hstack
  have hname : Path.NoDeclaration (stem ++ scriptEnding) := Path.noDeclaration_script stem
  rw [Path.isDeclarationFile, Path.fileName?_of_stack (Path.normalize_normalize _) hstack, Option.getD_some,
    String.toList_ofList]
  simpa [Path.NoDeclaration] using hname

/-- where a specifier in a source leads, below the root. Two dots take the name of the source off. -/
def placeBelow (e : Emitter) (source : Path) (specifier : String) : Path :=
  ((e.rootDir.relativeTo source).join ⟨"../" ++ specifier⟩).normalize

section Output

variable {e : Emitter} {source : Path} (hroot : e.rootDir.isAbsolute = true) (hsource : source.isAbsolute = true)
  {ns : List String} {n : String} (hat : At source e.rootDir (ns ++ [n]))

include hroot hsource hat

/-- **The output of a source** has the same directories and the bare name with the ending of a script. -/
theorem at_outputPath : At (e.outputPath source) e.outDir (ns ++ [bareName n ++ ".js"]) := by
  have hplain := hat.plain
  have hbare : '/' ∉ (bareName n).toList := fun hc => (hplain n (by simp)).slash_notMem (Path.bareName_subset n _ hc)
  have hplain' : ∀ m ∈ ns ++ [bareName n ++ ".js"], (Component.name m).Plain := by
    intro m hm
    rcases List.mem_append.1 hm with hm | hm
    · exact hplain m (List.mem_append_left _ hm)
    · rw [List.mem_singleton.1 hm]
      exact Path.plain_append hbare (by decide) (by decide)
  have hstem := Path.withoutSourceEnding_ofNames hplain
  have hnames : ofNames (ns ++ [bareName n ++ ".js"]) = ⟨(ofNames (ns ++ [n])).withoutSourceEnding.text ++ ".js"⟩ := by
    rw [Path.ofNames_concat hplain', hstem]
    apply Path.eq_of_toList_text
    simp
  have hne : (ofNames (ns ++ [n])).withoutSourceEnding.text.toList ≠ [] := by
    rw [hstem, String.toList_ofList]
    exact List.append_ne_nil_of_right_ne_nil _ (Path.bareName_ne_nil (hplain n (by simp)))
  have hrelative : (ofNames (ns ++ [n])).withoutSourceEnding.isAbsolute = false := by
    rw [← isAbsolute_append hne ".js", ← hnames]
    exact Path.isAbsolute_ofNames hplain'
  rw [outputPath, Path.relativeTo_of_at hsource hroot hat, Path.join_append hrelative hne, ← hnames]
  exact Path.at_join_ofNames hplain' e.outDir

/-- **A specifier that stays below the root** leads to the same names from the source and from its output. -/
theorem exists_names_below {specifier : String} (hs : Path.isAbsolute ⟨specifier⟩ = false)
    (hinside : Component.up ∉ (e.placeBelow source specifier).components) :
    ∃ ms, e.placeBelow source specifier = ofNames ms ∧ ∀ p d : Path, At p d ns → At (p.join ⟨specifier⟩) d ms := by
  -- behind the two dots, the specifier is read from the directories of the source
  have hdots : Path.isAbsolute ⟨"../" ++ specifier⟩ = false := by simp [Path.isAbsolute]
  have hstretch : Path.stretch ("../" ++ specifier).toList = .up :: Path.stretch specifier.toList := by
    rw [String.toList_append]
    exact Path.stretch_append_slash ['.', '.'] specifier.toList
  have hstack : (e.placeBelow source specifier).stack =
      (Path.stretch specifier.toList).foldl Path.resolveStep (ns.map Component.name).reverse := by
    rw [placeBelow, Path.stack_normalize, Path.stack_join _ hdots, hstretch, Path.relativeTo_of_at hsource hroot hat,
      Path.stack_ofNames hat.plain]
    simp [Path.resolveStep]
  have hup : Component.up ∉ (e.placeBelow source specifier).stack := by
    rwa [placeBelow, Path.components_normalize, List.mem_reverse, ← Path.stack_normalize] at hinside
  rw [hstack] at hup
  obtain ⟨ms, hms⟩ := Path.exists_names_of_inside ns specifier.toList hup
  refine ⟨ms, ?_, fun p d hp => ?_⟩
  · rw [hms, placeBelow, Path.stack_normalize] at hstack
    rw [placeBelow, Path.normalize_eq, hstack, List.reverse_reverse]
    rfl
  · rw [At, Path.stack_join _ hs, hp, ← hms]
    exact Path.foldl_append_of_inside d.stack _ hup

/-! ## Names -/

section Policy

variable {policy : Policy} (hout : e.outDir.isAbsolute = true) (hpolicy : policy.outDir = some e.outDir.normalize)

include hout hpolicy

/-- the name of an output is the name of its source below the root -/
theorem moduleName_output (hback : '\\' ∉ n.toList) :
    policy.moduleName .empty (e.outputPath source).normalize.text = Policy.nameOf (ns ++ [n]) := by
  have hat' := at_outputPath hroot hsource hat
  have habs := isAbsolute_outputPath hout source
  have hbare : bareName (bareName n ++ ".js") = bareName n := by
    have hn := hat.plain n (by simp)
    refine Path.bareName_append (by simp) (Path.isStem_of_notMem (Path.bareName_ne_nil hn) (fun hc => ?_) fun hc => ?_)
      (Path.noDeclaration_script _)
    · exact hn.slash_notMem (Path.bareName_subset n _ hc)
    · exact hback (Path.bareName_subset n _ hc)
  calc policy.moduleName .empty (e.outputPath source).normalize.text
    _ = policy.placeName (e.outputPath source).normalize.normalize :=
      policy.moduleName_of_isAbsolute _ (Path.isAbsolute_normalize habs)
    _ = Policy.nameOf (ns ++ [bareName n ++ ".js"]) := by
      rw [Path.normalize_normalize, Policy.placeName_of_at hpolicy hout habs hat']
    _ = Policy.nameOf (ns ++ [n]) := by
      rw [Policy.nameOf, Policy.nameOf, Path.withoutSourceEnding_ofNames hat.plain,
        Path.withoutSourceEnding_ofNames hat'.plain, hbare]

/-- the name of a specifier in an output is the name of its place below the root -/
theorem moduleName_specifier {specifier : String} (hs : Path.isAbsolute ⟨specifier⟩ = false)
    (hdot : specifier.toList.head? = some '.') {ms : List String}
    (hms : ∀ p d : Path, At p d ns → At (p.join ⟨specifier⟩) d ms) :
    policy.moduleName (e.outputPath source).normalize specifier = Policy.nameOf ms := by
  have hat' := at_outputPath hroot hsource hat
  have habs := Path.isAbsolute_normalize (isAbsolute_outputPath hout source)
  obtain ⟨d, hd, hdabs, hdat⟩ := hat'.normalize.exists_parent (Path.normalize_normalize _) habs
  rw [policy.moduleName_of_dot _ hs hdot, hd, Option.getD_some]
  exact Policy.placeName_of_at hpolicy hout (Path.isAbsolute_join hdabs) (hms d e.outDir hdat)

end Policy

end Output

end Emitter

/-! ## Entries -/

/-- a module references the name of each specifier that it calls -/
theorem GoogModule.mem_referenced_of_call {text specifier : String}
    (h : .call specifier.toList ∈ stretches [] text.toList) (policy : Rules) (es5 : Bool) (path : Path) :
    policy.moduleName path specifier ∈ (wrap policy es5 path text).referenced := by
  have hrequired : (Stretch.call specifier.toList).required? (policy.moduleName path) =
      some (policy.moduleName path specifier) := by
    rw [Stretch.required?, String.ofList_toList]
  rw [wrap, List.mem_eraseDups, List.mem_filterMap]
  exact ⟨_, h, hrequired⟩

namespace Pipeline

/-- what is listed is listed under the name of its output -/
theorem moduleName_of_listed {p : Pipeline MemoryHost} {e : Emitter} {units : List SourceUnit} {k : Path}
    {entry : ManifestEntry} (h : (k, entry) ∈ (p.writings e units).filterMap Writing.listed?) :
    k.normalize = k ∧ entry.moduleName = p.policy.moduleName .empty k.text := by
  obtain ⟨w, hw, hlisted⟩ := List.mem_filterMap.1 h
  obtain ⟨u, -, -, rfl | ⟨composed, rfl⟩⟩ := mem_writings hw
  · rw [listed?_outputWriting] at hlisted
    split_ifs at hlisted
    obtain ⟨rfl, rfl⟩ := Prod.mk.inj (Option.some.inj hlisted)
    exact ⟨Path.normalize_normalize _, rfl⟩
  · cases hlisted

/-- the last entry for an output counts, and all of them have its name -/
theorem entry?_of_listed {p : Pipeline MemoryHost} {e : Emitter} {units : List SourceUnit} {k : Path}
    {entry : ManifestEntry} (h : (k, entry) ∈ (p.writings e units).filterMap Writing.listed?) :
    ∃ last, ((p.writings e units).foldl put p).manifest.entry? k = some last ∧
      last.moduleName = p.policy.moduleName .empty k.text := by
  obtain ⟨⟨k', last⟩, hk, hsame, hget⟩ :=
    PathTable.overwriting_insert.exists_mem_of_foldl _ p.manifest.entries ⟨(k, entry), h, Path.Same.refl k⟩
  obtain ⟨hnormal, hname⟩ := moduleName_of_listed hk
  have hkey : k' = k := Path.eq_of_same_of_normal hnormal (moduleName_of_listed h).1 (Path.Same.symm hsame)
  refine ⟨last, ?_, ?_⟩
  · rw [Manifest.entry?, manifest_puts]
    exact hget
  · rw [hname, hkey]

/-- the manifest lists the output of each unit that is written -/
theorem entry?_of_emitted {p : Pipeline MemoryHost} (hgoog : p.options.googModule = true) {e : Emitter}
    {units : List SourceUnit} (hlines : ∀ u ∈ units, Emitter.mapLines u.text ≤ Mappings.indexLimit) {u : SourceUnit}
    (hu : u ∈ units) (hem : p.Emitted u) :
    ∃ entry, ((p.writings e units).foldl put p).manifest.entry? (e.outputPath u.path).normalize = some entry ∧
      entry.moduleName = p.policy.moduleName .empty (e.outputPath u.path).normalize.text := by
  have hlisted :=
    listed?_outputWriting p.policy p.options (e.outputPath u.path) (Emitter.outputText (e.outputPath u.path) u.text)
  rw [if_neg (by simp [hgoog, Emitter.isDeclarationFile_output])] at hlisted
  exact entry?_of_listed (List.mem_filterMap.2 ⟨_, outputWriting_mem_writings hlines hu hem, hlisted⟩)

/-- the module that is written for a unit -/
def moduleOf (p : Pipeline MemoryHost) (e : Emitter) (u : SourceUnit) : GoogModule :=
  GoogModule.wrap p.policy p.options.es5 (e.outputPath u.path).normalize
    (Emitter.outputText (e.outputPath u.path) u.text)

section Run

variable {p : Pipeline MemoryHost} (hgoog : p.options.googModule = true) {e : Emitter} {g : Generation}
  (hlines : CountedLines (p.begun.runPasses g).2) {u : SourceUnit} (hu : u ∈ (p.begun.runPasses g).2.units.values)
  (hem : (p.begun.runPasses g).1.Emitted u)

include hgoog hlines hu hem

/-- **A run lists the output of each unit that it writes, under the name of that output.** -/
theorem entry?_of_emission : ∃ entry, (p.emission g e).manifest.entry? (e.outputPath u.path).normalize = some entry ∧
    entry.moduleName = p.policy.moduleName .empty (e.outputPath u.path).normalize.text := by
  have hsetup : SameSetup p.begun (p.begun.runPasses g).1 := sameSetup_runEach p.options.passes.passes p.begun g
  have hgoog' : (p.begun.runPasses g).1.options.googModule = true := hsetup.options ▸ hgoog
  obtain ⟨entry, hentry, hname⟩ := entry?_of_emitted hgoog' hlines hu hem
  rw [hsetup.policy] at hname
  exact ⟨entry, hentry, hname⟩

/-- **A unit that has its output for itself stands there as a module.** -/
theorem read?_of_emission (hg : (p.begun.runPasses g).2.Project)
    (halone : (p.begun.runPasses g).1.Alone e (p.begun.runPasses g).2.units.values u) :
    Host.read? (p.emission g e).host (e.outputPath u.path) = some (p.moduleOf e u).text := by
  have hsetup : SameSetup p.begun (p.begun.runPasses g).1 := sameSetup_runEach p.options.passes.passes p.begun g
  have hunique : ∀ v ∈ (p.begun.runPasses g).2.units.values, v.path = u.path → v = u := by
    intro v hv hpath
    have hget := hg.get?_path hv
    rw [hpath, hg.get?_path hu] at hget
    exact (Option.some.inj hget).symm
  rw [emission, read?_of_emitted hlines hu hem hunique halone, hsetup.policy, hsetup.options, text_outputWriting]
  exact congrArg some (if_neg (by simp [begun, hgoog, Emitter.isDeclarationFile_output]))

end Run

/-! ## Runs -/

/-- in a run, the output of `a` requires a module under a relative specifier that leads to `b`, and both are written -/
structure Requires (p : Pipeline MemoryHost) (g : Generation) (e : Emitter) (a : SourceUnit) (specifier : String)
    (b : SourceUnit) : Prop where
  source : a ∈ (p.begun.runPasses g).2.units.values
  target : b ∈ (p.begun.runPasses g).2.units.values
  written : (p.begun.runPasses g).1.Emitted a
  listed : (p.begun.runPasses g).1.Emitted b
  call : .call specifier.toList ∈ GoogModule.stretches [] (Emitter.outputText (e.outputPath a.path) a.text).toList
  relative : Path.isAbsolute ⟨specifier⟩ = false
  leads : Host.resolveDependency? p.host specifier a.path = some b.path

/-- source and target are below the root, and the specifier does not leave it on the way -/
structure StaysInside (e : Emitter) (source : Path) (specifier : String) (target : Path) : Prop where
  sourceBelow : source.Beneath e.rootDir
  targetBelow : target.Beneath e.rootDir
  way : Component.up ∉ (e.placeBelow source specifier).components

/-- **A required name is the name of the module it leads to exactly if place and file agree without their endings.**
Take a new pipeline that makes modules and names them below the output directory, and a unit whose output requires
another one, both below the root. The run succeeds, the manifest lists the output of the required unit, and the module
of the requiring one, which stands at its output, references the name of the specifier. This is the name in the manifest
just when the place of the specifier is the path of the required unit, but for the endings of source files. -/
theorem required_name_matches_iff {host : MemoryHost} (hhost : host.table.Sorted) (policy : Policy)
    (options : PipelineOptions) (hgoog : options.googModule = true) {e : Emitter} (hroot : e.rootDir.isAbsolute = true)
    (hout : e.outDir.isAbsolute = true) (hpolicy : policy.outDir = some e.outDir.normalize) {g : Generation}
    (hg : g.Project) (hlines : CountedLines ((fresh host policy.rules options).begun.runPasses g).2) {a b : SourceUnit}
    {specifier : String} (h : (fresh host policy.rules options).Requires g e a specifier b)
    (hinside : StaysInside e a.path specifier b.path) :
    ∃ r q entry, (fresh host policy.rules options).run g e = (.ok r, q) ∧
      q.manifest.entry? (e.outputPath b.path).normalize = some entry ∧
      (((fresh host policy.rules options).begun.runPasses g).1.Alone e
        ((fresh host policy.rules options).begun.runPasses g).2.units.values a →
        Host.read? q.host (e.outputPath a.path) = some ((fresh host policy.rules options).moduleOf e a).text) ∧
      policy.moduleName (e.outputPath a.path).normalize specifier ∈
        ((fresh host policy.rules options).moduleOf e a).referenced ∧
      (policy.moduleName (e.outputPath a.path).normalize specifier = entry.moduleName ↔
        (e.placeBelow a.path specifier).withoutSourceEnding = (e.rootDir.relativeTo b.path).withoutSourceEnding) := by
  have hlast : ((fresh host policy.rules options).begun.runPasses g).2.Project := project_runEach _ hg
  obtain ⟨hnormala, habsa, -⟩ := hlast.proper_of_mem h.source
  obtain ⟨hnormalb, habsb, hbackb⟩ := hlast.proper_of_mem h.target
  -- the names of both sources below the root, and those that the specifier leads to
  obtain ⟨ns, n, hata⟩ := Path.exists_at_of_beneath habsa hroot hinside.sourceBelow
  obtain ⟨ms, m, hatb⟩ := Path.exists_at_of_beneath habsb hroot hinside.targetBelow
  obtain ⟨rs, hplace, hrs⟩ := Emitter.exists_names_below hroot habsa hata h.relative hinside.way
  obtain ⟨hplaceabs, hplaceat⟩ := Host.at_place hnormala habsa hata hrs
  have hback := Path.backslash_notMem_stack habsb hbackb
  have hmem : Component.name m ∈ b.path.stack := hatb.stack_concat ▸ List.mem_cons_self
  have hdecl : NoDeclaration m.toList := (Path.isDeclarationFile_iff hnormalb habsb hatb.stack_concat).1 h.listed.2
  -- both names, and when they agree
  have hrequired : policy.moduleName (e.outputPath a.path).normalize specifier = Policy.nameOf rs :=
    Emitter.moduleName_specifier hroot habsa hata hout hpolicy h.relative (Host.head?_of_resolve h.leads h.relative) hrs
  have hlisted : policy.moduleName .empty (e.outputPath b.path).normalize.text = Policy.nameOf (ms ++ [m]) :=
    Emitter.moduleName_output hroot habsb hatb hout hpolicy (hback m hmem)
  have hiff := Host.nameOf_eq_iff_of_resolve h.leads hplaceabs hplaceat hatb hback hdecl
  have hrun := run_eq_emission (Attained.fresh hhost policy.rules options).tidy hlines e
  obtain ⟨entry, hentry, hname⟩ := entry?_of_emission hgoog hlines h.target h.listed
  have hrules : (fresh host policy.rules options).policy = policy.rules := rfl
  rw [hrules, Policy.rules_moduleName, hlisted] at hname
  have hreferenced := GoogModule.mem_referenced_of_call h.call policy.rules options.es5 (e.outputPath a.path).normalize
  rw [Policy.rules_moduleName] at hreferenced
  refine ⟨_, _, entry, hrun, hentry, read?_of_emission hgoog hlines h.source h.written hlast, hreferenced, ?_⟩
  rw [hrequired, hname, hiff, hplace, Path.relativeTo_of_at habsb hroot hatb]

/-- a main file that requires a file and a directory -/
def mainText : String := "import lib = require('./lib');\nimport app = require('./app');\n"

/-- its project: the main file, the file, and the index file of the directory -/
def requiringFiles : List (Path × String) :=
  [(⟨"/p/main.ts"⟩, mainText), (⟨"/p/lib.ts"⟩, "let y = 1;\n"), (⟨"/p/app/index.ts"⟩, "let x = 1;\n")]

def requiringProject : Generation := .ofUnits (requiringFiles.map fun f => .parse f.1 f.2)

def requiringPolicy : Policy := ⟨⟨"/p"⟩, some ⟨"/o"⟩, [], []⟩

/-- a new pipeline over the project -/
def overRequiring : Pipeline MemoryHost := fresh (.ofFiles requiringFiles) requiringPolicy.rules {}

/-- the passes leave its units as they are -/
theorem values_requiringProject :
    ((overRequiring.begun.runPasses requiringProject).2.units.values.map fun u => (u.path, u.text)) =
    [(⟨"/p/app/index.ts"⟩, "let x = 1;\n"), (⟨"/p/lib.ts"⟩, "let y = 1;\n"), (⟨"/p/main.ts"⟩, mainText)] := by
  decide +kernel

/-- the main file requires both others, under specifiers that lead to them -/
theorem exists_requires_main (specifier : String) (target : Path)
    (h : (specifier, target) ∈ [("./lib", (⟨"/p/lib.ts"⟩ : Path)), ("./app", ⟨"/p/app/index.ts"⟩)]) :
    ∃ a b, overRequiring.Requires requiringProject toOutputs a specifier b ∧ a.path = ⟨"/p/main.ts"⟩ ∧
      b.path = target := by
  have hfailed : ∀ path, (overRequiring.begun.runPasses requiringProject).1.hasFailed path = false := by
    have hnone : (overRequiring.begun.runPasses requiringProject).1.failures = [] := by decide +kernel
    intro path
    rw [hasFailed, hnone]
    rfl
  have hunit : ∀ f ∈ requiringFiles, ∃ u ∈ (overRequiring.begun.runPasses requiringProject).2.units.values,
      (u.path, u.text) = f := by
    intro f hf
    refine List.mem_map.1 ?_
    rw [values_requiringProject]
    revert f
    decide
  have hleads : ∀ s ∈ [("./lib", (⟨"/p/lib.ts"⟩ : Path)), ("./app", ⟨"/p/app/index.ts"⟩)],
      (∃ f ∈ requiringFiles, f.1 = s.2) ∧ s.2.isDeclarationFile = false ∧ Path.isAbsolute ⟨s.1⟩ = false ∧
      Host.resolveDependency? overRequiring.host s.1 ⟨"/p/main.ts"⟩ = some s.2 ∧
      .call s.1.toList ∈ GoogModule.stretches []
        (Emitter.outputText (toOutputs.outputPath ⟨"/p/main.ts"⟩) mainText).toList := by decide +kernel
  obtain ⟨⟨f, hf, hpath⟩, hdecl, hrel, hresolve, hcall⟩ := hleads _ h
  obtain ⟨a, ha, heqa⟩ := hunit (⟨"/p/main.ts"⟩, mainText) List.mem_cons_self
  obtain ⟨b, hb, rfl⟩ := hunit f hf
  cases a with
  | mk path text summary =>
    cases heqa
    have hmain : Path.isDeclarationFile ⟨"/p/main.ts"⟩ = false := by decide
    have hpath : b.path = target := hpath
    subst hpath
    exact ⟨_, b, ⟨ha, hb, ⟨hfailed _, hmain⟩, ⟨hfailed _, hdecl⟩, hcall, hrel, hresolve⟩, rfl, rfl⟩

theorem project_requiringProject : requiringProject.Project := Generation.project_ofUnits (by decide)

theorem sorted_requiringFiles : (MemoryHost.ofFiles requiringFiles).table.Sorted := by
  have hsorted :
      (MemoryHost.ofFiles requiringFiles).table.entries.Pairwise fun a b => a.1.compare b.1 = .lt := by decide
  exact hsorted

theorem countedLines_requiringProject : CountedLines (overRequiring.begun.runPasses requiringProject).2 := by
  have hshort : ∀ f ∈ (overRequiring.begun.runPasses requiringProject).2.units.values.map fun u => (u.path, u.text),
      Emitter.mapLines f.2 ≤ Mappings.indexLimit := by
    rw [values_requiringProject]
    decide
  intro u hu
  exact hshort (u.path, u.text) (List.mem_map.2 ⟨u, hu, rfl⟩)

/-- the file is required under the name that the manifest lists it under -/
theorem required_name_matches_iff_mainFile :
    (MemoryHost.ofFiles requiringFiles).table.Sorted ∧ requiringProject.Project ∧
    CountedLines (overRequiring.begun.runPasses requiringProject).2 ∧
      ∃ a b, overRequiring.Requires requiringProject toOutputs a "./lib" b ∧
        StaysInside toOutputs a.path "./lib" b.path ∧
      ∃ r q entry, overRequiring.run requiringProject toOutputs = (.ok r, q) ∧
        q.manifest.entry? ⟨"/o/lib.js"⟩ = some entry ∧
        entry.moduleName = requiringPolicy.moduleName ⟨"/o/main.js"⟩ "./lib" := by
  obtain ⟨a, b, hrequires, ha, hb⟩ := exists_requires_main "./lib" ⟨"/p/lib.ts"⟩ (by simp)
  have hinside : StaysInside toOutputs a.path "./lib" b.path := by
    rw [ha, hb]
    exact ⟨by decide +kernel, by decide +kernel, by decide +kernel⟩
  obtain ⟨r, q, entry, hrun, hentry, -, -, hiff⟩ :=
    required_name_matches_iff sorted_requiringFiles requiringPolicy {} rfl (e := toOutputs)
    (by decide) (by decide) (by decide +kernel) project_requiringProject countedLines_requiringProject hrequires hinside
  have hplaces : (toOutputs.outputPath ⟨"/p/main.ts"⟩).normalize = ⟨"/o/main.js"⟩ ∧
      (toOutputs.outputPath ⟨"/p/lib.ts"⟩).normalize = ⟨"/o/lib.js"⟩ ∧
      (toOutputs.placeBelow ⟨"/p/main.ts"⟩ "./lib").withoutSourceEnding =
        (toOutputs.rootDir.relativeTo ⟨"/p/lib.ts"⟩).withoutSourceEnding := by
    decide +kernel
  rw [ha, hb, hplaces.1] at hiff
  rw [hb, hplaces.2.1] at hentry
  exact ⟨sorted_requiringFiles, project_requiringProject, countedLines_requiringProject, a, b, hrequires, hinside, r, q,
    entry, hrun, hentry, (hiff.2 hplaces.2.2).symm⟩

/-- the directory is required under a name that no output has: its index file is listed under a longer one -/
theorem directory_specifier_misses_module :
    ¬ ∀ (host : MemoryHost) (policy : Policy) (options : PipelineOptions) (e : Emitter) (g : Generation),
      host.table.Sorted → options.googModule = true → e.rootDir.isAbsolute = true → e.outDir.isAbsolute = true →
      policy.outDir = some e.outDir.normalize → g.Project →
      ∀ (a b : SourceUnit) (specifier : String), (fresh host policy.rules options).Requires g e a specifier b →
      ∀ r q entry, (fresh host policy.rules options).run g e = (.ok r, q) →
        q.manifest.entry? (e.outputPath b.path).normalize = some entry →
        policy.moduleName (e.outputPath a.path).normalize specifier = entry.moduleName := by
  intro hall
  obtain ⟨a, b, hrequires, ha, hb⟩ := exists_requires_main "./app" ⟨"/p/app/index.ts"⟩ (by simp)
  have hrun := run_eq_emission (Attained.fresh sorted_requiringFiles requiringPolicy.rules {}).tidy
    countedLines_requiringProject toOutputs
  obtain ⟨entry, hentry, hname⟩ :=
    entry?_of_emission rfl (e := toOutputs) countedLines_requiringProject hrequires.target hrequires.listed
  have hsame := hall (.ofFiles requiringFiles) requiringPolicy {} toOutputs requiringProject sorted_requiringFiles rfl
    (by decide) (by decide) (by decide +kernel) project_requiringProject a b "./app" hrequires _ _ entry hrun hentry
  rw [hname, ha, hb] at hsame
  have hdiffer : requiringPolicy.moduleName (toOutputs.outputPath ⟨"/p/main.ts"⟩).normalize "./app" ≠
      overRequiring.policy.moduleName .empty (toOutputs.outputPath ⟨"/p/app/index.ts"⟩).normalize.text := by
    decide +kernel
  exact hdiffer hsame

end Pipeline

end ClosurePipeline
