/-
Outputs that sources share. An output is the path of its source below the root, with `.js` for the ending of a source
file. So two sources that differ in their endings only have one output: both are written there, and the later one stays,
with its map and its entry in the manifest.

- `emittedUnits`: the units that a run writes; `listed_writings` are their entries, one for each unit;
- `exists_writings_split`, `read?_of_last`, `entry?_of_last`: what stands at an output is what the last unit with that
  output has put there;
- `mem_files_of_writings`, `size_of_writings`: the outputs listed are those of the units, and each unit has an entry of
  its own exactly if no two units share an output;
- `normalize_outputPath_eq_iff`: below the root, outputs are shared by the paths that agree without their endings;
- `one_entry_for_each_output`: the whole of it, for a run of a new pipeline. `sibling_output_is_lost` is a project that
  loses a module.
-/
import Mathlib.Tactic
import ClosurePipeline.Proofs.Pipeline.Requires

namespace ClosurePipeline

open ClosurePipeline.Path (At ofNames bareName)
open Emitter (mapPath exists_outputs)

/-! ## Tables with normal keys -/

namespace PathTable

variable {α : Type}

/-- the keys after insertions, if all of them are normal paths -/
theorem mem_keys_foldl_insert {k : Path} (es : List (Path × α)) :
    ∀ {t : PathTable α}, t.Sorted → (∀ k ∈ t.keys, k.normalize = k) →
    (∀ e ∈ es, e.1.normalize = e.1) →
    (k ∈ (es.foldl (fun t e => t.insert e.1 e.2) t).keys ↔ k ∈ t.keys ∨ ∃ e ∈ es, e.1 = k) := by
  induction es with
  | nil => intro t _ _ _; simp
  | cons d es ih =>
    intro t ht hkeys hes
    have hspelled : ∀ e ∈ t.entries, d.1.Same e.1 → e.1 = d.1 := fun e he hs =>
      Path.eq_of_same_of_normal (hkeys _ (List.mem_map_of_mem he)) (hes d List.mem_cons_self) hs.symm
    have hinsert := fun k' => ht.mem_keys_insert_iff hspelled d.2 (p := k')
    have hnormal : ∀ k' ∈ (t.insert d.1 d.2).keys, k'.normalize = k' := fun k' hk' =>
      ((hinsert k').1 hk').elim (fun e => e ▸ hes d List.mem_cons_self) (hkeys k')
    rw [List.foldl_cons, ih (ht.insert _ _) hnormal fun e he => hes e (List.mem_cons_of_mem _ he), hinsert]
    simp only [List.mem_cons, exists_eq_or_imp, eq_comm (a := k)]
    tauto

end PathTable

namespace Emitter

/-- **Below the root, outputs are shared by the paths that agree without their endings.** -/
theorem normalize_outputPath_eq_iff {e : Emitter} (hroot : e.rootDir.isAbsolute = true) {a b : Path}
    (ha : a.isAbsolute = true) (hb : b.isAbsolute = true) (hbelowa : a.Beneath e.rootDir)
    (hbelowb : b.Beneath e.rootDir) :
    (e.outputPath a).normalize = (e.outputPath b).normalize ↔
      (e.rootDir.relativeTo a).withoutSourceEnding = (e.rootDir.relativeTo b).withoutSourceEnding := by
  obtain ⟨ns, n, hata⟩ := Path.exists_at_of_beneath ha hroot hbelowa
  obtain ⟨ms, m, hatb⟩ := Path.exists_at_of_beneath hb hroot hbelowb
  constructor
  · intro hsame
    have hnames := (at_outputPath hroot ha hata).inj (at_outputPath hroot hb hatb) (Path.stack_eq_of_normalize_eq hsame)
    obtain ⟨rfl, hlast⟩ := List.append_inj' hnames rfl
    have hbare : bareName n = bareName m := by
      have hends := congrArg String.toList (List.singleton_inj.1 hlast)
      rw [String.toList_append, String.toList_append] at hends
      exact String.toList_inj.1 (List.append_cancel_right hends)
    rw [Path.relativeTo_of_at ha hroot hata, Path.relativeTo_of_at hb hroot hatb,
      Path.withoutSourceEnding_ofNames hata.plain, Path.withoutSourceEnding_ofNames hatb.plain, hbare]
  · intro hstems
    rw [outputPath, outputPath, hstems]

end Emitter

namespace Pipeline

/-! ## Units that are written -/

/-- the units of a generation that are written, in order -/
def emittedUnits (p : Pipeline MemoryHost) (g : Generation) : List SourceUnit :=
  g.units.values.filter fun u => !p.hasFailed u.path && !u.path.isDeclarationFile

theorem mem_emittedUnits {p : Pipeline MemoryHost} {g : Generation} {u : SourceUnit} :
    u ∈ p.emittedUnits g ↔ u ∈ g.units.values ∧ p.Emitted u := by
  simp [emittedUnits, Emitted]

/-- other units add nothing to what is written -/
theorem writings_emittedUnits (p : Pipeline MemoryHost) (g : Generation) (e : Emitter) :
    p.writings e g.units.values = p.writings e (p.emittedUnits g) := by
  unfold writings emittedUnits
  induction g.units.values with
  | nil => rfl
  | cons u units ih =>
    rw [List.flatMap_cons, ih, List.filter_cons]
    split_ifs with hu
    · rfl
    · rw [writingsOf_of_not_emitted (fun hem => hu (by simp [hem.1, hem.2])), List.nil_append]

/-- the entry of a unit: the module at its output and the modules it requires -/
def entryOf (p : Pipeline MemoryHost) (e : Emitter) (u : SourceUnit) : ManifestEntry :=
  ⟨(p.moduleOf e u).moduleName, ManifestEntry.sortNames (p.moduleOf e u).referenced⟩

section Writings

variable {p : Pipeline MemoryHost} (hgoog : p.options.googModule = true) {e : Emitter}

include hgoog

/-- an output is written as a module -/
theorem text_outputWriting_of_goog (u : SourceUnit) :
    (outputWriting p.policy p.options (e.outputPath u.path) (Emitter.outputText (e.outputPath u.path) u.text)).text =
      (p.moduleOf e u).text := by
  rw [text_outputWriting, if_neg (by simp [hgoog, e.isDeclarationFile_output])]
  rfl

theorem listed?_outputWriting_of_goog (u : SourceUnit) :
    (outputWriting p.policy p.options (e.outputPath u.path) (Emitter.outputText (e.outputPath u.path) u.text)).listed? =
      some ((e.outputPath u.path).normalize, p.entryOf e u) := by
  rw [listed?_outputWriting, if_neg (by simp [hgoog, e.isDeclarationFile_output])]
  rfl

variable {units : List SourceUnit} (hem : ∀ u ∈ units, p.Emitted u)
  (hlines : ∀ u ∈ units, Emitter.mapLines u.text ≤ Mappings.indexLimit)

include hem hlines

/-- **Each unit that is written is listed once,** under its output -/
theorem listed_writings :
    (p.writings e units).filterMap Writing.listed? =
      units.map fun u => ((e.outputPath u.path).normalize, p.entryOf e u) := by
  induction units with
  | nil => rfl
  | cons u units ih =>
    obtain ⟨composed, hc⟩ := exists_mapOf_eq e p.ledger (hlines u List.mem_cons_self)
    have hrest := ih (fun v hv => hem v (List.mem_cons_of_mem _ hv)) fun v hv => hlines v (List.mem_cons_of_mem _ hv)
    unfold writings at hrest ⊢
    rw [List.flatMap_cons, writingsOf_of_emitted (hem u List.mem_cons_self) hc, List.filterMap_append, hrest,
      List.map_cons]
    simp only [List.filterMap_cons, List.filterMap_nil, listed?_outputWriting_of_goog hgoog]
    rfl

omit hgoog in
/-- a unit of these has its output among the writings; what follows it is at other paths, if no later unit shares the
output -/
theorem exists_writings_split {before after : List SourceUnit} {u : SourceUnit} (hsplit : units = before ++ u :: after)
    (hlater : ∀ v ∈ after, (e.outputPath v.path).normalize ≠ (e.outputPath u.path).normalize) :
    ∃ front back, p.writings e units =
        front ++ outputWriting p.policy p.options (e.outputPath u.path)
          (Emitter.outputText (e.outputPath u.path) u.text) :: back ∧
      ∀ w ∈ back, w.path.normalize ≠ (e.outputPath u.path).normalize := by
  obtain ⟨composed, hc⟩ := exists_mapOf_eq e p.ledger (hlines u (by simp [hsplit]))
  obtain ⟨_, _, hside⟩ := exists_outputs e u.path
  refine ⟨p.writings e before, { path := mapPath (e.outputPath u.path), text := composed } :: p.writings e after, ?_,
    fun w hw => ?_⟩
  · rw [hsplit, writings, List.flatMap_append, List.flatMap_cons, writingsOf_of_emitted (hem u (by simp [hsplit])) hc]
    rfl
  · -- the unit's own map, or an output or a map of a later unit
    rcases List.mem_cons.1 hw with rfl | hw
    · exact (hside.normalize_ne hside).symm
    · obtain ⟨v, hv, -, rfl | ⟨composed', rfl⟩⟩ := mem_writings hw
      · rw [path_outputWriting, Path.normalize_normalize]
        exact hlater v hv
      · obtain ⟨_, _, hside'⟩ := exists_outputs e v.path
        exact (hside.normalize_ne hside').symm

/-- **At an output stands the module of the last unit with that output.** -/
theorem read?_of_last {before after : List SourceUnit} {u : SourceUnit} (hsplit : units = before ++ u :: after)
    (hlater : ∀ v ∈ after, (e.outputPath v.path).normalize ≠ (e.outputPath u.path).normalize) :
    Host.read? ((p.writings e units).foldl put p).host (e.outputPath u.path) = some (p.moduleOf e u).text := by
  obtain ⟨front, back, hwritings, hback⟩ := exists_writings_split hem hlines hsplit hlater
  have hfile :
      (outputWriting p.policy p.options (e.outputPath u.path) (Emitter.outputText (e.outputPath u.path) u.text)).file =
      ((e.outputPath u.path).normalize, (p.moduleOf e u).text) := by
    rw [Writing.file, path_outputWriting, Path.normalize_normalize, text_outputWriting_of_goog hgoog]
  rw [MemoryHost.read?_eq, table_puts, hwritings, List.map_append, List.map_cons, hfile,
    PathTable.overwriting_insert.get?_foldl_of_last _ _ _ fun d hd hs => ?_]
  obtain ⟨w, hw, rfl⟩ := List.mem_map.1 hd
  exact hback w hw (Path.eq_of_same_of_normal (Path.normalize_normalize _) (Path.normalize_normalize w.path) hs).symm

/-- **The entry of an output is that of the last unit with that output.** -/
theorem entry?_of_last {before after : List SourceUnit} {u : SourceUnit} (hsplit : units = before ++ u :: after)
    (hlater : ∀ v ∈ after, (e.outputPath v.path).normalize ≠ (e.outputPath u.path).normalize) :
    ((p.writings e units).foldl put p).manifest.entry? (e.outputPath u.path).normalize = some (p.entryOf e u) := by
  rw [Manifest.entry?, manifest_puts, listed_writings hgoog hem hlines, hsplit, List.map_append, List.map_cons,
    PathTable.overwriting_insert.get?_foldl_of_last _ _ _ fun d hd hs => ?_]
  obtain ⟨v, hv, rfl⟩ := List.mem_map.1 hd
  dsimp only at hs
  exact hlater v hv
    (Path.eq_of_same_of_normal (Path.normalize_normalize _) (Path.normalize_normalize (e.outputPath v.path)) hs).symm

variable (hnew : p.manifest = {})

include hnew

/-- the outputs listed are those of the units -/
theorem mem_files_of_writings {k : Path} :
    k ∈ ((p.writings e units).foldl put p).manifest.files ↔ ∃ u ∈ units, (e.outputPath u.path).normalize = k := by
  have hnormal : ∀ d ∈ units.map fun u => ((e.outputPath u.path).normalize, p.entryOf e u), d.1.normalize = d.1 := by
    intro d hd
    obtain ⟨v, -, rfl⟩ := List.mem_map.1 hd
    dsimp only
    rw [Path.normalize_normalize]
  rw [Manifest.files, manifest_puts, listed_writings hgoog hem hlines, hnew,
    PathTable.mem_keys_foldl_insert _ List.Pairwise.nil (fun k' hk' => by cases hk') hnormal]
  simp [PathTable.keys]

/-- **Each unit has an entry of its own exactly if no two units share an output.** -/
theorem size_of_writings : ((p.writings e units).foldl put p).manifest.size = units.length ↔
    units.Pairwise fun u v => (e.outputPath u.path).normalize ≠ (e.outputPath v.path).normalize := by
  have hsorted : ((p.writings e units).foldl put p).manifest.entries.Sorted :=
    sorted_manifest_puts _ (hnew ▸ List.Pairwise.nil)
  have hnodup : ((p.writings e units).foldl put p).manifest.files.Nodup := by
    refine List.pairwise_map.2 (hsorted.imp fun {a b} hlt heq => ?_)
    exact Path.not_same_of_compare_lt hlt (heq ▸ Path.Same.refl _)
  -- the outputs listed are the outputs of the units, each once
  have hperm : ((p.writings e units).foldl put p).manifest.files.Perm
      (units.map fun u => (e.outputPath u.path).normalize).dedup := by
    refine (List.perm_ext_iff_of_nodup hnodup (List.nodup_dedup _)).2 fun k => ?_
    rw [mem_files_of_writings hgoog hem hlines hnew, List.mem_dedup, List.mem_map]
  have hsize : ((p.writings e units).foldl put p).manifest.size =
      (units.map fun u => (e.outputPath u.path).normalize).dedup.length := by
    rw [← hperm.length_eq, Manifest.files, PathTable.keys, List.length_map]
    rfl
  have hpairs : (units.Pairwise fun u v => (e.outputPath u.path).normalize ≠ (e.outputPath v.path).normalize) ↔
      (units.map fun u => (e.outputPath u.path).normalize).Nodup := List.pairwise_map.symm
  rw [hsize, hpairs, ← List.dedup_eq_self]
  constructor
  · intro hlength
    exact (List.dedup_sublist _).eq_of_length (by rw [hlength, List.length_map])
  · intro hdedup
    rw [hdedup, List.length_map]

end Writings

/-! ## Runs -/

theorem SameNotes.emittedUnits {p q : Pipeline MemoryHost} (h : SameNotes p q) (g : Generation) :
    q.emittedUnits g = p.emittedUnits g := by
  unfold Pipeline.emittedUnits
  simp only [h.hasFailed]

/-- a run puts in place what is written for the units that it writes -/
theorem emission_eq (p : Pipeline MemoryHost) (g : Generation) (e : Emitter) : p.emission g e =
    ((p.begun.runPasses g).1.writings e ((p.begun.runPasses g).1.emittedUnits (p.begun.runPasses g).2)).foldl put
      (p.begun.runPasses g).1 := by
  rw [emission, writings_emittedUnits]

section Run

variable {p : Pipeline MemoryHost} (hgoog : p.options.googModule = true) {e : Emitter} {g : Generation}
  (hlines : CountedLines (p.begun.runPasses g).2)

include hgoog hlines

/-- what a run leaves at the output of a unit, if no later one shares it -/
theorem last_of_emission {before after : List SourceUnit} {u : SourceUnit}
    (hsplit : (p.emission g e).emittedUnits (p.begun.runPasses g).2 = before ++ u :: after)
    (hlater : ∀ v ∈ after, (e.outputPath v.path).normalize ≠ (e.outputPath u.path).normalize) :
    Host.read? (p.emission g e).host (e.outputPath u.path) = some (p.moduleOf e u).text ∧
      (p.emission g e).manifest.entry? (e.outputPath u.path).normalize = some (p.entryOf e u) := by
  have hsetup : SameSetup p.begun (p.begun.runPasses g).1 := sameSetup_runEach p.options.passes.passes p.begun g
  have hgoog' : (p.begun.runPasses g).1.options.googModule = true := hsetup.options ▸ hgoog
  have hmodule : (p.begun.runPasses g).1.moduleOf e u = p.moduleOf e u := by
    rw [moduleOf, hsetup.policy, hsetup.options]
    rfl
  have hem : ∀ v ∈ (p.begun.runPasses g).1.emittedUnits (p.begun.runPasses g).2, (p.begun.runPasses g).1.Emitted v :=
    fun v hv => (mem_emittedUnits.1 hv).2
  have hlines' : ∀ v ∈ (p.begun.runPasses g).1.emittedUnits (p.begun.runPasses g).2,
      Emitter.mapLines v.text ≤ Mappings.indexLimit :=
    fun v hv => hlines v (mem_emittedUnits.1 hv).1
  rw [emission_eq, (sameNotes_puts _ _).emittedUnits] at hsplit
  have hread := read?_of_last hgoog' hem hlines' hsplit hlater
  have hentry := entry?_of_last hgoog' hem hlines' hsplit hlater
  rw [emission_eq]
  rw [hmodule] at hread
  rw [entryOf, hmodule] at hentry
  exact ⟨hread, hentry⟩

variable (hnew : p.manifest = {})

include hnew

/-- the outputs that a run of a new pipeline lists -/
theorem mem_files_of_emission {k : Path} : k ∈ (p.emission g e).manifest.files ↔
    ∃ u ∈ (p.emission g e).emittedUnits (p.begun.runPasses g).2, (e.outputPath u.path).normalize = k := by
  have hsetup : SameSetup p.begun (p.begun.runPasses g).1 := sameSetup_runEach p.options.passes.passes p.begun g
  rw [emission_eq, (sameNotes_puts _ _).emittedUnits]
  exact mem_files_of_writings (hsetup.options ▸ hgoog) (fun v hv => (mem_emittedUnits.1 hv).2)
    (fun v hv => hlines v (mem_emittedUnits.1 hv).1)
    (hsetup.manifest.trans hnew)

/-- how many outputs a run of a new pipeline lists -/
theorem size_of_emission :
    (p.emission g e).manifest.size = ((p.emission g e).emittedUnits (p.begun.runPasses g).2).length ↔
    ((p.emission g e).emittedUnits (p.begun.runPasses g).2).Pairwise fun u v => (e.outputPath u.path).normalize ≠
      (e.outputPath v.path).normalize := by
  have hsetup : SameSetup p.begun (p.begun.runPasses g).1 := sameSetup_runEach p.options.passes.passes p.begun g
  rw [emission_eq, (sameNotes_puts _ _).emittedUnits]
  exact size_of_writings (hsetup.options ▸ hgoog) (fun v hv => (mem_emittedUnits.1 hv).2)
    (fun v hv => hlines v (mem_emittedUnits.1 hv).1)
    (hsetup.manifest.trans hnew)

end Run

/-- **A run keeps one module for each output.** A run of a new pipeline that makes modules succeeds. It lists the
outputs of the units it writes, and nothing else. At each output stands the module of the last unit with that output,
and so does its entry in the manifest. So each unit keeps its module and has an entry of its own exactly if no two units
share an output. Of units below the root, those share one whose paths below the root agree without their endings. -/
theorem one_entry_for_each_output {host : MemoryHost} (hhost : host.table.Sorted) (policy : Rules)
    (options : PipelineOptions) (hgoog : options.googModule = true) (e : Emitter) {g : Generation}
    (hlines : CountedLines ((fresh host policy options).begun.runPasses g).2) :
    ∃ r q, (fresh host policy options).run g e = (.ok r, q) ∧
      (∀ k, k ∈ q.manifest.files ↔ ∃ u ∈ q.emittedUnits r.generation, (e.outputPath u.path).normalize = k) ∧
      (∀ before u after, q.emittedUnits r.generation = before ++ u :: after →
        (∀ v ∈ after, (e.outputPath v.path).normalize ≠ (e.outputPath u.path).normalize) →
        Host.read? q.host (e.outputPath u.path) = some ((fresh host policy options).moduleOf e u).text ∧
          q.manifest.entry? (e.outputPath u.path).normalize = some ((fresh host policy options).entryOf e u)) ∧
      (q.manifest.size = (q.emittedUnits r.generation).length ↔
        (q.emittedUnits r.generation).Pairwise fun u v => (e.outputPath u.path).normalize ≠
          (e.outputPath v.path).normalize) ∧
      (e.rootDir.isAbsolute = true → ∀ u ∈ q.emittedUnits r.generation, ∀ v ∈ q.emittedUnits r.generation,
        u.path.isAbsolute = true → v.path.isAbsolute = true → u.path.Beneath e.rootDir → v.path.Beneath e.rootDir →
        ((e.outputPath u.path).normalize = (e.outputPath v.path).normalize ↔
          (e.rootDir.relativeTo u.path).withoutSourceEnding = (e.rootDir.relativeTo v.path).withoutSourceEnding)) := by
  have hnew : (fresh host policy options).manifest = {} := rfl
  refine ⟨_, _, run_eq_emission (Attained.fresh hhost policy options).tidy hlines e,
    fun k => mem_files_of_emission hgoog hlines hnew, fun before u after hsplit hlater =>
      last_of_emission hgoog hlines hsplit hlater, size_of_emission hgoog hlines hnew, ?_⟩
  intro hroot u _ v _ hu hv hbelowu hbelowv
  exact Emitter.normalize_outputPath_eq_iff hroot hu hv hbelowu hbelowv

/-- two sources that differ in their endings only -/
def siblingFiles : List (Path × String) :=
  [(⟨"/p/a.ts"⟩, "export class A \x7b\x7d\n"), (⟨"/p/a.tsx"⟩, "export class B \x7b\x7d\n")]

def siblings : Generation := .ofUnits (siblingFiles.map fun f => .parse f.1 f.2)

/-- a new pipeline over both -/
def overSiblings : Pipeline MemoryHost := fresh (.ofFiles siblingFiles) newInMemory.policy {}

theorem sorted_siblingFiles : (MemoryHost.ofFiles siblingFiles).table.Sorted := by
  have hsorted : (MemoryHost.ofFiles siblingFiles).table.entries.Pairwise fun a b => a.1.compare b.1 = .lt := by decide
  exact hsorted

/-- what closurizing makes of them -/
def closurizedSiblings : List (Path × String) :=
  [(⟨"/p/a.ts"⟩, "/** @export */\nexport class A \x7b\x7d\n"),
    (⟨"/p/a.tsx"⟩, "/** @export */\nexport class B \x7b\x7d\n")]

theorem behind_siblings :
    ((overSiblings.begun.runPasses siblings).2.units.values.map fun u => (u.path, u.text)) = closurizedSiblings ∧
      ((overSiblings.begun.runPasses siblings).1.emittedUnits (overSiblings.begun.runPasses siblings).2).map
        (fun u => (u.path, u.text)) = closurizedSiblings := by decide +kernel

/-- both are written -/
theorem exists_emittedUnits_siblings :
    ∃ u v, (overSiblings.emission siblings toOutputs).emittedUnits (overSiblings.begun.runPasses siblings).2 = [u, v] ∧
    u.path = ⟨"/p/a.ts"⟩ ∧ v.path = ⟨"/p/a.tsx"⟩ ∧ v.text = "/** @export */\nexport class B \x7b\x7d\n" := by
  obtain ⟨u, _, hu, hfirst, hrest⟩ := List.map_eq_cons_iff.1 behind_siblings.2
  obtain ⟨v, _, rfl, hsecond, hnil⟩ := List.map_eq_cons_iff.1 hrest
  rw [List.map_eq_nil_iff.1 hnil] at hu
  refine ⟨u, v, ?_, (Prod.mk.inj hfirst).1, Prod.mk.inj hsecond⟩
  rw [emission, (sameNotes_puts _ _).emittedUnits, hu]

/-- and they share an output -/
theorem outputPath_siblings :
    toOutputs.outputPath ⟨"/p/a.ts"⟩ = ⟨"/o/a.js"⟩ ∧ toOutputs.outputPath ⟨"/p/a.tsx"⟩ = ⟨"/o/a.js"⟩ := by decide

theorem countedLines_siblings : CountedLines (overSiblings.begun.runPasses siblings).2 := by
  have hshort : ∀ f ∈ closurizedSiblings, Emitter.mapLines f.2 ≤ Mappings.indexLimit := by decide
  intro u hu
  exact hshort (u.path, u.text) (behind_siblings.1 ▸ List.mem_map.2 ⟨u, hu, rfl⟩)

theorem run_siblings : overSiblings.run siblings toOutputs =
    (.ok ((overSiblings.emission siblings toOutputs).resultOf (overSiblings.begun.runPasses siblings).2),
      overSiblings.emission siblings toOutputs) :=
  run_eq_emission (Attained.fresh sorted_siblingFiles newInMemory.policy {}).tidy countedLines_siblings toOutputs

/-- the second one stands at the output of both, and there are fewer entries than units -/
theorem one_entry_for_each_output_siblings :
    (MemoryHost.ofFiles siblingFiles).table.Sorted ∧ CountedLines (overSiblings.begun.runPasses siblings).2 ∧
      ∃ r q, overSiblings.run siblings toOutputs = (.ok r, q) ∧ (q.emittedUnits r.generation).length = 2 ∧
        q.manifest.size ≠ 2 ∧ Host.read? q.host ⟨"/o/a.js"⟩ =
          some "goog.module('__.o.a'); /** @export */\nexport class B \x7b\x7d\n//# sourceMappingURL=a.js.map\n" := by
  obtain ⟨r, q, hrun, -, hlast, hsize, -⟩ :=
    one_entry_for_each_output sorted_siblingFiles newInMemory.policy {} rfl toOutputs countedLines_siblings
  obtain ⟨hr, rfl⟩ := Prod.mk.inj (hrun.symm.trans run_siblings)
  cases Except.ok.inj hr
  obtain ⟨u, v, hunits, hu, hv, htext⟩ := exists_emittedUnits_siblings
  refine ⟨sorted_siblingFiles, countedLines_siblings, _, _, run_siblings, congrArg List.length hunits,
    fun htwo => ?_, ?_⟩
  · have hpairs := hsize.1 (htwo.trans (congrArg List.length hunits).symm)
    dsimp only [resultOf] at hpairs
    rw [hunits, List.pairwise_pair, hu, hv] at hpairs
    exact hpairs (by rw [outputPath_siblings.1, outputPath_siblings.2])
  · have hread := (hlast [u] v [] hunits (by simp)).1
    rw [hv, outputPath_siblings.2] at hread
    rw [hread, moduleOf, hv, htext]
    decide +kernel

/-- **An output can be lost:** two units are written, and they share one output -/
theorem sibling_output_is_lost :
    ¬ ∀ (host : MemoryHost) (policy : Rules) (options : PipelineOptions) (e : Emitter) (g : Generation),
      host.table.Sorted → options.googModule = true → g.Project →
      ∀ r q, (fresh host policy options).run g e = (.ok r, q) →
      ((q.emittedUnits r.generation).Pairwise fun u v => (e.outputPath u.path).normalize ≠
        (e.outputPath v.path).normalize) ∧ q.manifest.size = (q.emittedUnits r.generation).length ∧
        ∀ u ∈ q.emittedUnits r.generation,
          Host.read? q.host (e.outputPath u.path) = some ((fresh host policy options).moduleOf e u).text := by
  intro hall
  obtain ⟨u, v, hunits, hu, hv, -⟩ := exists_emittedUnits_siblings
  have hproject : siblings.Project := Generation.project_ofUnits (by decide)
  obtain ⟨hpairs, -, -⟩ :=
    hall _ newInMemory.policy {} toOutputs siblings sorted_siblingFiles rfl hproject _ _ run_siblings
  dsimp only [resultOf] at hpairs
  rw [hunits, List.pairwise_pair, hu, hv] at hpairs
  exact hpairs (by rw [outputPath_siblings.1, outputPath_siblings.2])

end Pipeline

end ClosurePipeline
