/-
What emission writes, as a value. The emitter's outputs go through the pipeline, which makes each of them a file and may
list it in the manifest. Which files and entries these are depends on the units and on what the passes left, not on the
host and not on what the manifest lists.

- `Writing`, `Pipeline.put`: a file with its entry in the manifest, and how it is put in place;
- `writingsOf`: what is written for a unit, `commit_output_eq` and `commit_map_eq` say that the pipeline puts just that;
- `emitAll_eq`: **emission puts the writings of its units in place, and never fails**;
- `writings_congr`: pipelines that hold the same fragments and failures write the same;
- `table_puts`, `manifest_puts`: files and entries after writings, as insertions;
- `mem_writings`, `read?_of_emitted`: what can be written, and what stands at an output.
-/
import Mathlib.Tactic
import ClosurePipeline.Proofs.Host.Outputs
import ClosurePipeline.Proofs.Pipeline.Emission

namespace ClosurePipeline

open Emitter (mapPath baseMap exists_outputs)

/-- a file that is written, and its entry in the manifest, if it is listed -/
structure Writing where
  path : Path
  text : String
  entry? : Option ManifestEntry := none

namespace Writing

/-- the file as a table has it -/
def file (w : Writing) : Path × String := (w.path.normalize, w.text)

/-- the entry with its key -/
def listed? (w : Writing) : Option (Path × ManifestEntry) := w.entry?.map fun e => (w.path, e)

end Writing

/-! ## Entries -/

/-- the names of a list in order, each once -/
def ManifestEntry.sortNames (names : List String) : List String := names.foldl (fun sorted n => insertName n sorted) []

theorem ManifestEntry.mem_insertName {name n : String} {names : List String} :
    n ∈ insertName name names ↔ n = name ∨ n ∈ names := by
  induction names with
  | nil => simp [insertName]
  | cons m names ih =>
    unfold insertName
    split_ifs with hlt heq
    · rw [List.mem_cons]
    · rw [heq, List.mem_cons, or_self_left]
    · rw [List.mem_cons, ih, List.mem_cons]
      tauto

theorem ManifestEntry.mem_sortNames {n : String} {names : List String} : n ∈ sortNames names ↔ n ∈ names := by
  have hfold : ∀ sorted : List String, n ∈ names.foldl (fun sorted n => insertName n sorted) sorted ↔
      n ∈ sorted ∨ n ∈ names := by
    induction names with
    | nil => simp
    | cons m names ih =>
      intro sorted
      rw [List.foldl_cons, ih, mem_insertName, List.mem_cons]
      tauto
  rw [sortNames, hfold]
  simp

namespace Manifest

theorem foldl_addReferenced {m : Manifest} (hm : m.entries.Sorted) (path : Path) (names : List String) :
    ∀ e : ManifestEntry,
    names.foldl (fun m r => m.addReferenced path r) (⟨m.entries.insert path e⟩ : Manifest) =
      ⟨m.entries.insert path
        { e with referenced := names.foldl (fun sorted n => ManifestEntry.insertName n sorted) e.referenced }⟩ := by
  induction names with
  | nil => intro e; rfl
  | cons n names ih =>
    intro e
    rw [List.foldl_cons, addReferenced, hm.modify_insert, ih]
    rfl

/-- a module with the modules it requires is one entry -/
theorem addModule_addReferenced {m : Manifest} (hm : m.entries.Sorted) (path : Path) (name : String)
    (names : List String) :
    names.foldl (fun m r => m.addReferenced path r) (m.addModule path name) =
      ⟨m.entries.insert path ⟨name, ManifestEntry.sortNames names⟩⟩ :=
  foldl_addReferenced hm path names ⟨name, []⟩

end Manifest

namespace Pipeline

/-! ## One output -/

/-- puts a writing in place -/
def put (p : Pipeline MemoryHost) (w : Writing) : Pipeline MemoryHost := { p with
  host := p.host.write w.path w.text
  manifest := match w.entry? with
    | some e => ⟨p.manifest.entries.insert w.path e⟩
    | none => p.manifest }

theorem sameNotes_put (p : Pipeline MemoryHost) (w : Writing) : SameNotes p (p.put w) := ⟨rfl, rfl, rfl, rfl, rfl, rfl⟩

theorem sameNotes_puts (ws : List Writing) : ∀ p : Pipeline MemoryHost, SameNotes p (ws.foldl put p) := by
  induction ws with
  | nil => intro p; exact SameNotes.refl p
  | cons w ws ih => intro p; exact (sameNotes_put p w).trans (ih _)

/-- an output that is no map, as it is written: as a module with an entry, or as it is -/
def outputWriting (policy : Rules) (options : PipelineOptions) (path : Path) (text : String) : Writing :=
  if !options.googModule || path.normalize.isDeclarationFile then { path := path.normalize, text := text }
  else
    let wrapped := GoogModule.wrap policy options.es5 path.normalize text
    { path := path.normalize
      text := wrapped.text
      entry? := some ⟨wrapped.moduleName, ManifestEntry.sortNames wrapped.referenced⟩ }

theorem path_outputWriting (policy : Rules) (options : PipelineOptions) (path : Path) (text : String) :
    (outputWriting policy options path text).path = path.normalize := by
  unfold outputWriting
  split_ifs <;> rfl

theorem text_outputWriting (policy : Rules) (options : PipelineOptions) (path : Path) (text : String) :
    (outputWriting policy options path text).text = if !options.googModule || path.normalize.isDeclarationFile then text
      else (GoogModule.wrap policy options.es5 path.normalize text).text := by
  unfold outputWriting
  split_ifs <;> rfl

theorem listed?_outputWriting (policy : Rules) (options : PipelineOptions) (path : Path) (text : String) :
    (outputWriting policy options path text).listed? = if !options.googModule ||
      path.normalize.isDeclarationFile then none
        else some (path.normalize, ⟨policy.moduleName .empty path.normalize.text,
        ManifestEntry.sortNames (GoogModule.wrap policy options.es5 path.normalize text).referenced⟩) := by
  unfold outputWriting
  split_ifs <;> rfl

theorem commit_output_eq {p : Pipeline MemoryHost} (hm : p.manifest.entries.Sorted) {path : Path}
    (h : path.extension? ≠ some "map") (text : String) :
    p.commit path text = (.ok (), p.put (outputWriting p.policy p.options path text)) := by
  have hcanonical : Host.canonical p.host path = path.normalize := rfl
  unfold commit outputWriting
  rw [if_neg h]
  dsimp only
  rw [hcanonical, Manifest.addModule_addReferenced hm]
  split_ifs <;> rfl

theorem commit_map_eq {p : Pipeline MemoryHost} {path : Path} (h : path.extension? = some "map")
    {text composed : String} (hc : p.ledger.compose p.host path text = .ok composed) :
    p.commit path text = (.ok (), p.put { path := path, text := composed }) := by
  unfold commit
  rw [if_pos h, hc]
  rfl

/-! ## The outputs of a unit -/

theorem pending_congr {l l' : Ledger} (h : ∀ path, l'.get path = l.get path) {σ : Type} [Host σ] (host : σ)
    (output : Path) (sources : List String) :
    l'.pending host output sources = l.pending host output sources := by
  simp only [Ledger.pending, h]

/-- a composed map depends on the fragments only, not on how a ledger holds them -/
theorem mapOf_congr {l l' : Ledger} (h : ∀ path, l'.get path = l.get path) (e : Emitter) (u : SourceUnit) :
    mapOf e l' u = mapOf e l u := by
  simp only [mapOf, Ledger.compose, pending_congr h]

/-- the map of a unit of 32-bit lines can be composed -/
theorem exists_mapOf_eq (e : Emitter) (l : Ledger) {u : SourceUnit}
    (hu : Emitter.mapLines u.text ≤ Mappings.indexLimit) :
    ∃ composed, mapOf e l u = .ok composed := by
  unfold mapOf Ledger.compose
  rw [Emitter.parse_baseMap _ hu]
  dsimp only
  split
  · exact ⟨_, rfl⟩
  · exact ⟨_, rfl⟩

/-- what is written for a unit: its output and its map -/
def writingsOf (p : Pipeline MemoryHost) (e : Emitter) (u : SourceUnit) : List Writing :=
  if p.hasFailed u.path || u.path.isDeclarationFile then []
  else
    match mapOf e p.ledger u with
    | .ok composed =>
      [outputWriting p.policy p.options (e.outputPath u.path) (Emitter.outputText (e.outputPath u.path) u.text),
        { path := mapPath (e.outputPath u.path), text := composed }]
    | .error _ => []

theorem writingsOf_of_not_emitted {p : Pipeline MemoryHost} {u : SourceUnit} (h : ¬ p.Emitted u) (e : Emitter) :
    p.writingsOf e u = [] := by
  have hout : (p.hasFailed u.path || u.path.isDeclarationFile) = true := by
    by_contra hn
    simp only [Bool.or_eq_true, not_or, Bool.not_eq_true] at hn
    exact h hn
  rw [writingsOf, if_pos hout]

theorem writingsOf_of_emitted {p : Pipeline MemoryHost} {u : SourceUnit} (h : p.Emitted u) {e : Emitter}
    {composed : String} (hc : mapOf e p.ledger u = .ok composed) : p.writingsOf e u =
      [outputWriting p.policy p.options (e.outputPath u.path) (Emitter.outputText (e.outputPath u.path) u.text),
        { path := mapPath (e.outputPath u.path), text := composed }] := by
  rw [writingsOf, h.1, h.2, hc]
  rfl

theorem emit_eq {p : Pipeline MemoryHost} (hm : p.manifest.entries.Sorted) {e : Emitter} {u : SourceUnit}
    (hu : p.Emitted u) {composed : String} (hc : mapOf e p.ledger u = .ok composed) :
    e.emit p u = (.ok (), (p.writingsOf e u).foldl put p) := by
  obtain ⟨above, stem, hside⟩ := exists_outputs e u.path
  have hwrite : Host.write p (e.outputPath u.path) (Emitter.outputText (e.outputPath u.path) u.text) = _ :=
    commit_output_eq hm hside.extension?_output (Emitter.outputText (e.outputPath u.path) u.text)
  rw [writingsOf_of_emitted hu hc]
  rw [Emitter.emit_of_write hu.2 hwrite]
  refine commit_map_eq hside.extension?_map ?_
  rw [compose_host _ _ {}]
  exact hc

/-! ## All outputs -/

/-- what is written for units, in order -/
def writings (p : Pipeline MemoryHost) (e : Emitter) (units : List SourceUnit) : List Writing :=
  units.flatMap (p.writingsOf e)

theorem writingsOf_congr {p q : Pipeline MemoryHost} (hpolicy : q.policy = p.policy) (hoptions : q.options = p.options)
    (hfailures : q.failures = p.failures) (hget : ∀ path, q.ledger.get path = p.ledger.get path) (e : Emitter) :
    q.writingsOf e = p.writingsOf e := by
  funext u
  have hfailed : q.hasFailed u.path = p.hasFailed u.path := by rw [hasFailed, hasFailed, hfailures]
  rw [writingsOf, writingsOf, hpolicy, hoptions, hfailed, mapOf_congr hget]

/-- **Pipelines that hold the same fragments and failures write the same.** -/
theorem writings_congr {p q : Pipeline MemoryHost} (hpolicy : q.policy = p.policy) (hoptions : q.options = p.options)
    (hfailures : q.failures = p.failures) (hget : ∀ path, q.ledger.get path = p.ledger.get path) (e : Emitter)
    (units : List SourceUnit) : q.writings e units = p.writings e units := by
  rw [writings, writings, writingsOf_congr hpolicy hoptions hfailures hget]

theorem SameNotes.writingsOf {p q : Pipeline MemoryHost} (h : SameNotes p q) (e : Emitter) :
    q.writingsOf e = p.writingsOf e :=
  writingsOf_congr h.policy h.options h.failures (fun _ => by rw [h.ledger]) e

theorem sorted_manifest_puts (ws : List Writing) : ∀ {p : Pipeline MemoryHost}, p.manifest.entries.Sorted →
    (ws.foldl put p).manifest.entries.Sorted := by
  induction ws with
  | nil => intro p hm; exact hm
  | cons w ws ih =>
    intro p hm
    apply ih
    unfold put
    cases w.entry? with
    | none => exact hm
    | some e => exact hm.insert _ _

/-- **Emission puts the writings of its units in place.** -/
theorem emitAll_eq {e : Emitter} (units : List SourceUnit) : ∀ {p : Pipeline MemoryHost}, p.manifest.entries.Sorted →
    (∀ u ∈ units, Emitter.mapLines u.text ≤ Mappings.indexLimit) →
    p.emitAll e units = (.ok (), (p.writings e units).foldl put p) := by
  induction units with
  | nil => intro p _ _; rfl
  | cons u units ih =>
    intro p hm hlines
    have hrest : ∀ v ∈ units, Emitter.mapLines v.text ≤ Mappings.indexLimit :=
      fun v hv => hlines v (List.mem_cons_of_mem _ hv)
    have hcons : p.writings e (u :: units) = p.writingsOf e u ++ p.writings e units := List.flatMap_cons ..
    by_cases hu : p.Emitted u
    · obtain ⟨composed, hc⟩ := exists_mapOf_eq e p.ledger (hlines u List.mem_cons_self)
      have hsame : ((p.writingsOf e u).foldl put p).writings e units = p.writings e units := by
        rw [writings, writings, (sameNotes_puts _ p).writingsOf]
      rw [emitAll_cons, if_neg (by simp [hu.1]), emit_eq hm hu hc, hcons, List.foldl_append, ← hsame]
      exact ih (sorted_manifest_puts _ hm) hrest
    · rw [emitAll_cons_of_not_emitted hu, hcons, writingsOf_of_not_emitted hu, List.nil_append]
      exact ih hm hrest

theorem host_puts (ws : List Writing) :
    ∀ p : Pipeline MemoryHost, (ws.foldl put p).host = p.host.writeAll (ws.map fun w => (w.path, w.text)) := by
  induction ws with
  | nil => intro p; rfl
  | cons w ws ih => intro p; exact ih (p.put w)

/-- the files after writings -/
theorem table_puts (ws : List Writing) : ∀ p : Pipeline MemoryHost,
    (ws.foldl put p).host.table = (ws.map Writing.file).foldl (fun t f => t.insert f.1 f.2) p.host.table := by
  induction ws with
  | nil => intro p; rfl
  | cons w ws ih => intro p; exact ih (p.put w)

/-- the entries after writings -/
theorem manifest_puts (ws : List Writing) : ∀ p : Pipeline MemoryHost,
    (ws.foldl put p).manifest.entries =
      (ws.filterMap Writing.listed?).foldl (fun t f => t.insert f.1 f.2) p.manifest.entries := by
  induction ws with
  | nil => intro p; rfl
  | cons w ws ih =>
    intro p
    rw [List.foldl_cons, ih, List.filterMap_cons]
    unfold put Writing.listed?
    cases w.entry? <;> rfl

/-- a writing is an output of a unit, or its map -/
theorem mem_writings {p : Pipeline MemoryHost} {e : Emitter} {units : List SourceUnit} {w : Writing}
    (h : w ∈ p.writings e units) :
    ∃ u ∈ units, p.Emitted u ∧
      (w = outputWriting p.policy p.options (e.outputPath u.path) (Emitter.outputText (e.outputPath u.path) u.text) ∨
        ∃ composed, w = { path := mapPath (e.outputPath u.path), text := composed }) := by
  obtain ⟨u, hu, hw⟩ := List.mem_flatMap.1 h
  by_cases hem : p.Emitted u
  · refine ⟨u, hu, hem, ?_⟩
    unfold writingsOf at hw
    split_ifs at hw
    · cases hw
    · split at hw
      · rename_i composed _
        rcases List.mem_cons.1 hw with hw | hw
        · exact Or.inl hw
        · exact Or.inr ⟨composed, List.mem_singleton.1 hw⟩
      · cases hw
  · rw [writingsOf_of_not_emitted hem] at hw
    cases hw

/-- the output of a unit of 32-bit lines is among the writings -/
theorem outputWriting_mem_writings {p : Pipeline MemoryHost} {e : Emitter} {units : List SourceUnit}
    (hlines : ∀ u ∈ units, Emitter.mapLines u.text ≤ Mappings.indexLimit) {u : SourceUnit} (hu : u ∈ units)
    (hem : p.Emitted u) :
    outputWriting p.policy p.options (e.outputPath u.path) (Emitter.outputText (e.outputPath u.path) u.text) ∈
      p.writings e units := by
  obtain ⟨composed, hc⟩ := exists_mapOf_eq e p.ledger (hlines u hu)
  rw [writings, List.mem_flatMap]
  refine ⟨u, hu, ?_⟩
  rw [writingsOf_of_emitted hem hc]
  exact List.mem_cons_self

/-- at the output of a unit that is alone there stands what is written for it -/
theorem read?_of_emitted {p : Pipeline MemoryHost} {e : Emitter} {units : List SourceUnit}
    (hlines : ∀ u ∈ units, Emitter.mapLines u.text ≤ Mappings.indexLimit) {u : SourceUnit} (hu : u ∈ units)
    (hem : p.Emitted u) (hunique : ∀ v ∈ units, v.path = u.path → v = u) (halone : p.Alone e units u) :
    Host.read? ((p.writings e units).foldl put p).host (e.outputPath u.path) =
      some (outputWriting p.policy p.options (e.outputPath u.path)
        (Emitter.outputText (e.outputPath u.path) u.text)).text := by
  have hpath : ∀ v : SourceUnit, (outputWriting p.policy p.options (e.outputPath v.path)
      (Emitter.outputText (e.outputPath v.path) v.text)).file.1 =
      (e.outputPath v.path).normalize := by
    intro v
    rw [Writing.file, path_outputWriting, Path.normalize_normalize]
  -- the last writing at this path counts, and only the unit itself can have made it
  obtain ⟨f, hf, hsame, hget⟩ :=
    PathTable.overwriting_insert.exists_mem_of_foldl ((p.writings e units).map Writing.file) p.host.table
    ⟨_, List.mem_map_of_mem (outputWriting_mem_writings hlines hu hem), Path.Same.refl _⟩
  rw [hpath u] at hsame hget
  rw [MemoryHost.read?_eq, table_puts, hget]
  obtain ⟨w, hw, rfl⟩ := List.mem_map.1 hf
  obtain ⟨v, hv, hemv, rfl | ⟨composed, rfl⟩⟩ := mem_writings hw
  · rw [hpath v] at hsame
    have heq := Path.eq_of_same_of_normal (Path.normalize_normalize _) (Path.normalize_normalize _) hsame.symm
    rw [hunique v hv (halone v hv hemv heq)]
    rfl
  · obtain ⟨_, _, hside⟩ := exists_outputs e u.path
    obtain ⟨_, _, hside'⟩ := exists_outputs e v.path
    simp only [Writing.file] at hsame
    have heq := Path.eq_of_same_of_normal (Path.normalize_normalize _) (Path.normalize_normalize _) hsame
    exact absurd heq (hside.normalize_ne hside')

end Pipeline

end ClosurePipeline
