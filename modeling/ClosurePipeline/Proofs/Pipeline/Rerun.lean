/-
A run repeated. A run of a pipeline over a host in memory takes notes and then puts writings in place. Both write over
what is there, and the outputs hide no source from the second run, so a second run on the same generation says the same
and leaves everything as it is.

- `Attained`: the pipelines that there are; `Attained.tidy` is what they have in common;
- `emission`, `run_eq_emission`: a run puts the writings of its units in place, and it succeeds;
- `round`, `run_eq_round`: a run is the notes of its passes and then these writings;
- `alike_run`: in the host behind a run, specifiers lead where they led before;
- `unchanged_round`: a second round of the same notes changes nothing;
- `run_twice`: the whole of it.
-/
import Mathlib.Tactic
import ClosurePipeline.Proofs.Pipeline.Lines
import ClosurePipeline.Proofs.Pipeline.Sight
import ClosurePipeline.Proofs.Pipeline.Writes

namespace ClosurePipeline.Pipeline

open Emitter (mapPath exists_outputs)
open MemoryHost (Alike)

/-! ## Pipelines -/

/-- the pipelines over hosts in memory: new ones, and what passes, runs and writes make of them, and other files in the
host -/
inductive Attained : Pipeline MemoryHost → Prop where
  | fresh {host : MemoryHost} (hhost : host.table.Sorted) (policy : Rules) (options : PipelineOptions) :
      Attained (.fresh host policy options)
  | hosted {p : Pipeline MemoryHost} (h : Attained p) {host : MemoryHost} (hhost : host.table.Sorted) :
    Attained { p with host := host }
  | begun {p : Pipeline MemoryHost} (h : Attained p) : Attained p.begun
  | passed {p : Pipeline MemoryHost} (h : Attained p) (g : Generation) (pass : Pass) : Attained (p.runPass g pass).1
  | written {p q : Pipeline MemoryHost} (h : Attained p) (hq : Written p q) : Attained q

theorem Attained.runEach (passes : List Pass) :
    ∀ {p : Pipeline MemoryHost} (g : Generation), p.Attained → (p.runEach g passes).1.Attained := by
  induction passes with
  | nil => intro p g h; exact h
  | cons pass passes ih => intro p g h; exact ih _ (h.passed g pass)

theorem Attained.run {p : Pipeline MemoryHost} (h : p.Attained) (g : Generation) (e : Emitter) :
    (p.run g e).2.Attained :=
  (h.begun.runEach p.options.passes.passes g).written (written_run p g e)

/-- tables are sorted, fragments are in pass order, and no file has externs twice -/
structure Tidy (p : Pipeline MemoryHost) : Prop where
  files : p.host.table.Sorted
  manifest : p.manifest.entries.Sorted
  externs : DistinctFiles p.externs
  ledger : p.ledger.Ordered

theorem Tidy.begun {p : Pipeline MemoryHost} (h : p.Tidy) : p.begun.Tidy := ⟨h.files, h.manifest, h.externs, h.ledger⟩

theorem Tidy.notes {p : Pipeline MemoryHost} (h : p.Tidy) (notes : List Note) : (notes.foldl note p).Tidy := by
  have hu := sameSetup_notes notes p
  exact ⟨hu.host ▸ h.files, hu.manifest ▸ h.manifest, h.externs.notes notes, ordered_notes notes h.ledger⟩

theorem Tidy.runPass {p : Pipeline MemoryHost} (h : p.Tidy) (g : Generation) (pass : Pass) :
    (p.runPass g pass).1.Tidy := by
  obtain ⟨notes, replaced, hnotes⟩ := exists_notes (σ := MemoryHost) g.units.values (fun _ _ => rfl) p.policy p.failures
  have hpass : (p.runPass g pass).1 = notes.foldl note p := congrArg Prod.fst (hnotes p rfl rfl).1
  rw [hpass]
  exact h.notes notes

theorem Tidy.commit {p : Pipeline MemoryHost} (h : p.Tidy) (path : Path) (text : String) :
    (p.commit path text).2.Tidy := by
  have hfile : ∀ (q : Path) (t : String), (p.host.write q t).table.Sorted := fun q t => h.files.insert _ _
  unfold Pipeline.commit
  dsimp only
  split_ifs
  · split
    · exact h
    · exact ⟨hfile _ _, h.manifest, h.externs, h.ledger⟩
  · exact ⟨hfile _ _, h.manifest, h.externs, h.ledger⟩
  · refine ⟨hfile _ _, ?_, h.externs, h.ledger⟩
    rw [Manifest.addModule_addReferenced h.manifest]
    exact h.manifest.insert _ _

/-- **All pipelines are tidy.** -/
theorem Attained.tidy {p : Pipeline MemoryHost} (h : p.Attained) : p.Tidy := by
  induction h with
  | fresh hhost policy options => exact ⟨hhost, List.Pairwise.nil, List.Pairwise.nil, Ledger.ordered_empty⟩
  | hosted _ hhost ih => exact ⟨hhost, ih.manifest, ih.externs, ih.ledger⟩
  | begun _ ih => exact ih.begun
  | passed _ g pass ih => exact ih.runPass g pass
  | written _ hq ih =>
    induction hq with
    | none => exact ih
    | output _ path text ihq => exact ihq.commit path text
    | file _ path text ihq => exact ⟨ihq.files.insert _ _, ihq.manifest, ihq.externs, ihq.ledger⟩

/-! ## One run -/

/-- the outputs of a generation are written beneath no file -/
def ClearOutputs (p : Pipeline MemoryHost) (g : Generation) (e : Emitter) : Prop :=
  ∀ u ∈ g.units.values, u.path.isDeclarationFile = false →
    ∀ file ∈ Host.files p.host, ¬ (e.outputPath u.path).Beneath file

instance (p : Pipeline MemoryHost) (g : Generation) (e : Emitter) : Decidable (ClearOutputs p g e) :=
  inferInstanceAs (Decidable (∀ u ∈ g.units.values, u.path.isDeclarationFile = false →
    ∀ file ∈ Host.files p.host, ¬ (e.outputPath u.path).Beneath file))

/-- no text is longer than 32-bit lines can count -/
def CountedLines (g : Generation) : Prop := ∀ u ∈ g.units.values, Emitter.mapLines u.text ≤ Mappings.indexLimit

instance (g : Generation) : Decidable (CountedLines g) :=
  inferInstanceAs (Decidable (∀ u ∈ g.units.values, Emitter.mapLines u.text ≤ Mappings.indexLimit))

/-- what the passes of a run leave, with the writings of its units in place -/
def emission (p : Pipeline MemoryHost) (g : Generation) (e : Emitter) : Pipeline MemoryHost :=
  ((p.begun.runPasses g).1.writings e (p.begun.runPasses g).2.units.values).foldl put (p.begun.runPasses g).1

/-- **A run puts the writings of its units in place, and it succeeds.** -/
theorem run_eq_emission {p : Pipeline MemoryHost} (h : p.Tidy) {g : Generation}
    (hlines : CountedLines (p.begun.runPasses g).2) (e : Emitter) :
    p.run g e = (.ok ((p.emission g e).resultOf (p.begun.runPasses g).2), p.emission g e) := by
  have hsetup : SameSetup p.begun (p.begun.runPasses g).1 := sameSetup_runEach p.options.passes.passes p.begun g
  have hsorted : (p.begun.runPasses g).1.manifest.entries.Sorted := hsetup.manifest ▸ h.manifest
  rw [run_eq, emitAll_eq _ hsorted hlines]
  rfl

/-- notes taken from the start, and then the writings of units -/
def round (p : Pipeline MemoryHost) (notes : List Note) (e : Emitter) (units : List SourceUnit) : Pipeline MemoryHost :=
  ((notes.foldl note p.begun).writings e units).foldl put (notes.foldl note p.begun)

/-- a run is a round of its notes -/
theorem run_eq_round {p : Pipeline MemoryHost} (h : p.Tidy) {g last : Generation} {notes : List Note}
    (hpasses : p.begun.runPasses g = (notes.foldl note p.begun, last)) (hlines : CountedLines last) (e : Emitter) :
    p.run g e = (.ok ((p.round notes e last.units.values).resultOf last), p.round notes e last.units.values) := by
  have hround : p.emission g e = p.round notes e last.units.values := by
    rw [emission, hpasses]
    rfl
  rw [run_eq_emission h (by rw [hpasses]; exact hlines) e, hround, hpasses]

/-- an output and its map are in one directory, so beneath the same files -/
theorem beneath_mapPath_iff (e : Emitter) (source dir : Path) :
    (mapPath (e.outputPath source)).Beneath dir ↔ (e.outputPath source).Beneath dir := by
  obtain ⟨above, stem, hside⟩ := exists_outputs e source
  rw [Path.beneath_iff (Path.stack_of_stretch hside.map), Path.beneath_iff (Path.stack_of_stretch hside.output),
    hside.start]

theorem isOutput_outputPath (e : Emitter) (source : Path) : (e.outputPath source).IsOutput := by
  obtain ⟨above, stem, hside⟩ := exists_outputs e source
  exact Or.inl ⟨stem, _, Path.stack_of_stretch hside.output⟩

theorem isOutput_mapPath (e : Emitter) (source : Path) : (mapPath (e.outputPath source)).IsOutput := by
  obtain ⟨above, stem, hside⟩ := exists_outputs e source
  exact Or.inr ⟨stem, _, Path.stack_of_stretch hside.map⟩

/-- **In the host with the writings, specifiers lead where they led before.** -/
theorem alike_puts {p q : Pipeline MemoryHost} {g last : Generation} {e : Emitter} (hclear : p.ClearOutputs g e)
    (hpaths : ∀ v ∈ last.units.values, ∃ u ∈ g.units.values, u.path = v.path) (hhost : q.host = p.host) :
    Alike p.host ((q.writings e last.units.values).foldl put q).host := by
  rw [host_puts, hhost]
  refine MemoryHost.alike_writes _ fun f hf => ?_
  obtain ⟨w, hw, rfl⟩ := List.mem_map.1 hf
  obtain ⟨v, hv, hem, hwrite⟩ := mem_writings hw
  obtain ⟨u, hu, huv⟩ := hpaths v hv
  have hout : ∀ source, Host.fileExists p.host source = true → ¬ (e.outputPath v.path).Beneath source := by
    intro source hexists hbeneath
    obtain ⟨k, hk, hsame⟩ := MemoryHost.fileExists_iff.1 hexists
    refine hclear u hu (huv ▸ hem.2) k hk ?_
    have hnormal : k.normalize = source.normalize := by rw [← hsame.normalize_eq, Path.normalize_normalize]
    rwa [huv, Path.Beneath, hnormal]
  have hpath : w.path = (e.outputPath v.path).normalize ∨ w.path = mapPath (e.outputPath v.path) := by
    rcases hwrite with rfl | ⟨composed, rfl⟩
    · exact Or.inl (path_outputWriting ..)
    · exact Or.inr rfl
  rcases hpath with hpath | hpath
  · have hnormal : w.path.normalize = (e.outputPath v.path).normalize := by rw [hpath, Path.normalize_normalize]
    refine ⟨?_, fun source _ hexists hbeneath => hout source hexists (hbeneath.congr hnormal.symm)⟩
    have hstack : w.path.stack = (e.outputPath v.path).stack := Path.stack_eq_of_normalize_eq hnormal
    change (∃ stem rest, _ = _) ∨ ∃ stem rest, _ = _
    rw [hstack]
    exact isOutput_outputPath e v.path
  · refine ⟨hpath ▸ isOutput_mapPath e v.path, fun source _ hexists hbeneath => hout source hexists ?_⟩
    rwa [hpath, beneath_mapPath_iff] at hbeneath

/-! ## Two runs -/

/-- files, manifest, externs and fragments are the same, and what was said is the same -/
structure Unchanged (p q : Pipeline MemoryHost) : Prop where
  files : q.host.table = p.host.table
  manifest : q.manifest = p.manifest
  externs : q.externs = p.externs
  fragments : ∀ path, q.ledger.get path = p.ledger.get path
  diagnostics : q.diagnostics = p.diagnostics
  failures : q.failures = p.failures

theorem Unchanged.resultOf {p q : Pipeline MemoryHost} (h : Unchanged p q) (g : Generation) :
    q.resultOf g = p.resultOf g := by
  have hfailed : ∀ file, q.hasFailed file = p.hasFailed file := fun file => hasFailed_eq h.failures file
  simp only [Pipeline.resultOf, hfailed, h.diagnostics, h.externs, h.manifest, h.failures]

/-- **A second round of the same notes changes nothing.** -/
theorem unchanged_round {p : Pipeline MemoryHost} (h : p.Tidy) (notes : List Note) (e : Emitter)
    (units : List SourceUnit) :
    Unchanged (p.round notes e units) ((p.round notes e units).round notes e units) := by
  -- what the notes leave: the first time, and again behind the writings
  let noted := notes.foldl note p.begun
  let again := notes.foldl note (p.round notes e units).begun
  have htidy : noted.Tidy := h.begun.notes notes
  have hfirst : SameNotes noted (p.round notes e units) := sameNotes_puts _ noted
  have hsecond : SameNotes again ((p.round notes e units).round notes e units) := sameNotes_puts _ again
  have hsetup : SameSetup (p.round notes e units).begun again := sameSetup_notes notes _
  have hexterns : again.externs = noted.externs := externs_replay h.begun.externs notes hfirst.externs
  have hfragments : ∀ path, again.ledger.get path = noted.ledger.get path :=
    fragments_replay h.begun.ledger notes hfirst.ledger
  have hfailures : again.failures = noted.failures := by rw [failures_notes, failures_notes]; rfl
  have hdiagnostics : again.diagnostics = noted.diagnostics := by rw [diagnostics_notes, diagnostics_notes]; rfl
  -- so both times the same is written
  have hwritings : again.writings e units = noted.writings e units :=
    writings_congr (hsetup.policy.trans hfirst.policy) (hsetup.options.trans hfirst.options) hfailures
      hfragments e units
  refine ⟨?_, ?_, ?_, fun path => ?_, ?_, ?_⟩
  · have hfiles : (p.round notes e units).host.table = _ := table_puts (noted.writings e units) noted
    have hagain : ((p.round notes e units).round notes e units).host.table = _ :=
      table_puts (again.writings e units) again
    rw [hagain, hwritings, hsetup.host]
    change List.foldl _ (p.round notes e units).host.table _ = _
    rw [hfiles]
    exact PathTable.overwriting_insert.foldl_twice _ htidy.files
  · have hlisted : (p.round notes e units).manifest.entries = _ := manifest_puts (noted.writings e units) noted
    have hagain : ((p.round notes e units).round notes e units).manifest.entries = _ :=
      manifest_puts (again.writings e units) again
    refine congrArg Manifest.mk (?_ : ((p.round notes e units).round notes e units).manifest.entries =
      (p.round notes e units).manifest.entries)
    rw [hagain, hwritings, hsetup.manifest]
    change List.foldl _ (p.round notes e units).manifest.entries _ = _
    rw [hlisted]
    exact PathTable.overwriting_insert.foldl_twice _ htidy.manifest
  · rw [hsecond.externs, hexterns, hfirst.externs]
  · rw [hsecond.ledger, hfragments, hfirst.ledger]
  · rw [hsecond.diagnostics, hdiagnostics, hfirst.diagnostics]
  · rw [hsecond.failures, hfailures, hfirst.failures]

/-- the host behind a run leads to the same files as the one in front of it -/
theorem alike_run {p : Pipeline MemoryHost} (h : p.Tidy) {g : Generation} (hg : g.Made) {e : Emitter}
    (hclear : p.ClearOutputs g e) (hlines : CountedLines (p.begun.runPasses g).2) :
    Alike p.host (p.run g e).2.host := by
  obtain ⟨notes, last, heach, -⟩ :=
    @exists_notes_runEach p.options.passes.passes p.begun p.begun g hg.keyed hg.parsed (Alike.refl p.host) rfl rfl
  have hpasses : p.begun.runPasses g = (notes.foldl note p.begun, last) := heach
  have hpaths : ∀ v ∈ last.units.values, ∃ u ∈ g.units.values, u.path = v.path := by
    intro v hv
    apply exists_mem_of_runEach p.options.passes.passes (p := p.begun)
    rwa [heach]
  rw [hpasses] at hlines
  rw [run_eq_round h hpasses hlines]
  exact alike_puts hclear hpaths (sameSetup_notes notes p.begun).host

/-- **A second run on the same generation gives the same result and leaves everything as it is.** -/
theorem run_twice {p : Pipeline MemoryHost} (hp : p.Attained) {g : Generation} (hg : g.Made) (e : Emitter)
    (hclear : p.ClearOutputs g e) (hlines : CountedLines (p.begun.runPasses g).2) :
    ∃ r q q', p.run g e = (.ok r, q) ∧ q.run g e = (.ok r, q') ∧ q'.host.table = q.host.table ∧
      q'.manifest = q.manifest ∧ q'.externs = q.externs ∧
      ∀ path, q'.ledger.get path = q.ledger.get path := by
  have hafter := hp.run g e
  have halike := alike_run hp.tidy hg hclear hlines
  have hsetup : (p.run g e).2.policy = p.policy ∧ (p.run g e).2.options = p.options := by
    have hnotes := (written_run p g e).sameNotes
    have hpasses := sameSetup_runEach p.options.passes.passes p.begun g
    exact ⟨hnotes.policy.trans hpasses.policy, hnotes.options.trans hpasses.options⟩
  -- both runs take the same notes
  obtain ⟨notes, last, h1, h2⟩ :=
    @exists_notes_runEach p.options.passes.passes p.begun (p.run g e).2.begun g hg.keyed hg.parsed halike hsetup.1 rfl
  have h1 : p.begun.runPasses g = (notes.foldl note p.begun, last) := h1
  have h2 : (p.run g e).2.begun.runPasses g = (notes.foldl note (p.run g e).2.begun, last) := by
    rw [runPasses_eq]
    change (p.run g e).2.begun.runEach g (p.run g e).2.options.passes.passes = _
    rw [hsetup.2]
    exact h2
  rw [h1] at hlines
  have hfirst := run_eq_round hp.tidy h1 hlines e
  have hsecond := run_eq_round hafter.tidy h2 hlines e
  rw [hfirst] at hsecond
  have hsame := unchanged_round hp.tidy notes e last.units.values
  rw [hsame.resultOf] at hsecond
  exact ⟨_, _, _, hfirst, hsecond, hsame.files, hsame.manifest, hsame.externs, hsame.fragments⟩

/-- a class and the class it extends, in a host in memory -/
def twoClasses : MemoryHost := .ofFiles
  [(⟨"/p/a.ts"⟩, "import \x7b B \x7d from './b';\nexport class A extends B \x7b\x7d\n"),
    (⟨"/p/b.ts"⟩, "export class B \x7b\x7d\n")]

/-- the class that extends; the other one is looked up in the host -/
def extendingClass : Generation :=
  .ofUnits [.parse ⟨"/p/a.ts"⟩ "import \x7b B \x7d from './b';\nexport class A extends B \x7b\x7d\n"]

/-- a new pipeline over the two classes -/
def overTwoClasses : Pipeline MemoryHost :=
  { host := twoClasses, policy := Policy.rules ⟨⟨"/p"⟩, none, [], []⟩, options := {} }

/-- the outputs are written beside the sources -/
theorem run_twice_extendingClass :
    overTwoClasses.Attained ∧ extendingClass.Made ∧ overTwoClasses.ClearOutputs extendingClass ⟨⟨"/p"⟩, ⟨"/p"⟩⟩ ∧
      CountedLines (overTwoClasses.begun.runPasses extendingClass).2 ∧
      ∃ r q q', overTwoClasses.run extendingClass ⟨⟨"/p"⟩, ⟨"/p"⟩⟩ = (.ok r, q) ∧
        q.run extendingClass ⟨⟨"/p"⟩, ⟨"/p"⟩⟩ = (.ok r, q') ∧
        q'.host.table = q.host.table ∧ q'.manifest = q.manifest ∧ q'.externs = q.externs ∧
        ∀ path, q'.ledger.get path = q.ledger.get path := by
  have hsorted : twoClasses.table.entries.Pairwise fun a b => a.1.compare b.1 = .lt := by decide +kernel
  have hp : overTwoClasses.Attained := .fresh hsorted _ _
  have hg : extendingClass.Made := .ofUnits (by simp [SourceUnit.parse])
  have hclear : overTwoClasses.ClearOutputs extendingClass ⟨⟨"/p"⟩, ⟨"/p"⟩⟩ := by decide +kernel
  have hlines : CountedLines (overTwoClasses.begun.runPasses extendingClass).2 := by decide +kernel
  exact ⟨hp, hg, hclear, hlines, run_twice hp hg _ hclear hlines⟩

end ClosurePipeline.Pipeline
