/-
Lines lead back. After a run, the source map of an output sends the first character of a line to the line it stood on
before all passes, if every pass that rewrote the unit copied that character.

- `Reached`: the pipelines that runs lead to; `Reached.settled`;
- `Copied`, `Carried`: a character copied by one pass, and by every pass of a run that rewrote the unit;
- `pushBackPass_of_copied`: what a pass left leads back from a copied character, exactly where it starts a line. The
  newest pass is asked at the start of a line, so the older one is asked at the very place;
- `exists_history`: what both passes leave of a unit, whichever of them are selected (`Stage` is one pass, `History`
  both);
- `exists_composed`, `exists_run_mapped`: the map composed of it can be read, and the run that writes it succeeds;
- `run_lines_lead_back`: the whole of it, through the map that was written and is read again.
-/
import Mathlib.Tactic
import ClosurePipeline.Proofs.Edit.Places
import ClosurePipeline.Proofs.Pipeline.Compose
import ClosurePipeline.Proofs.Pipeline.Emission
import ClosurePipeline.Proofs.Pipeline.Passes

namespace ClosurePipeline

/-- the texts of a generation have 32-bit places -/
def Generation.Addressable (g : Generation) : Prop := ∀ u ∈ g.units.values, Text.Addressable u.text.toList

namespace Pipeline

open Emitter (mapPath baseMap sourceName exists_outputs)

variable {σ : Type} [Host σ]

/-! ## Runs -/

/-- a new pipeline -/
def fresh (host : σ) (policy : Rules) (options : PipelineOptions) : Pipeline σ :=
  { host := host, policy := policy, options := options }

/-- a pipeline as a run starts with it -/
def begun (p : Pipeline σ) : Pipeline σ := { p with diagnostics := [], failures := [] }

theorem run_eq (p : Pipeline σ) (g : Generation) (e : Emitter) :
    p.run g e = match (p.begun.runPasses g).1.emitAll e (p.begun.runPasses g).2.units.values with
      | (.error err, q) => (.error err, q)
      | (.ok (), q) => (.ok (q.resultOf (p.begun.runPasses g).2), q) := rfl

/-- a new pipeline, and what runs make of it: the passes run, and then some emitter writes what it likes -/
inductive Reached : Pipeline σ → Prop where
  | fresh (host : σ) (policy : Rules) (options : PipelineOptions) :
    Reached { host := host, policy := policy, options := options }
  | emitted {p q : Pipeline σ} (h : Reached p) (g : Generation) (hq : Written (p.begun.runPasses g).1 q) : Reached q

theorem written_run (p : Pipeline σ) (g : Generation) (e : Emitter) :
    Written (p.begun.runPasses g).1 (p.run g e).2 := by
  have hwritten := written_emitAll e (p.begun.runPasses g).2.units.values (p.begun.runPasses g).1
  rw [run_eq]
  rcases hemit : (p.begun.runPasses g).1.emitAll e (p.begun.runPasses g).2.units.values with ⟨err | _, q⟩
  · rw [hemit] at hwritten
    exact hwritten
  · rw [hemit] at hwritten
    exact hwritten

theorem Reached.run {p : Pipeline σ} (h : p.Reached) (g : Generation) (e : Emitter) :
    (p.run g e).2.Reached := h.emitted g (written_run p g e)

omit [Host σ] in
theorem Settled.begun {p : Pipeline σ} (h : p.Settled) : p.begun.Settled := ⟨h.ordered, h.selected⟩

omit [Host σ] in
theorem Settled.of_sameNotes {p q : Pipeline σ} (h : p.Settled) (hq : SameNotes p q) : q.Settled := by
  refine ⟨?_, fun path pass hpass => ?_⟩
  · rw [hq.ledger]
    exact h.ordered
  · rw [hq.ledger]
    rw [hq.options] at hpass
    exact h.selected path pass hpass

theorem Settled.runPasses {p : Pipeline σ} (h : p.Settled) (g : Generation) : (p.runPasses g).1.Settled :=
  Settled.runEach _ g h fun _ hpass => hpass

/-- **Runs leave fragments of selected passes only.** -/
theorem Reached.settled {p : Pipeline σ} (h : p.Reached) : p.Settled := by
  induction h with
  | fresh host policy options => exact ⟨Ledger.ordered_empty, fun _ _ _ => rfl⟩
  | emitted _ g hq ih => exact (ih.begun.runPasses g).of_sameNotes hq.sameNotes

/-! ## Copied characters -/

/-- character `i` of the text behind a pass is character `j` of the text before it: the same one, or one that the pass
copied -/
def Copied (pass : Pass) (cx : Pass.Context) (u u' : SourceUnit) (i j : Nat) : Prop :=
  (u'.text = u.text ∧ i = j) ∨
    (u'.text ≠ u.text ∧ ∃ es, pass.edits cx u = .ok es ∧ EditScript.CopiedFrom (EditScript.pieces u.text.toList es) i j)

/-- character `i` of the last text at a path is character `j` of the first one, copied by every pass that rewrote the
unit -/
def Carried (path : Path) : Pipeline σ → Generation → List Pass → Nat → Nat → Prop
  | _, _, [], i, j => i = j
  | p, g, pass :: passes, i, j =>
    ∃ u u' m, g.units.get? path = some u ∧ (p.runPass g pass).2.units.get? path = some u' ∧
      Copied pass (p.context g) u u' m j ∧ Carried path (p.runPass g pass).1 (p.runPass g pass).2 passes i m

/-- the generations that passes go through -/
def stages (p : Pipeline σ) (g : Generation) : List Pass → List Generation
  | [] => [g]
  | pass :: passes => g :: stages (p.runPass g pass).1 (p.runPass g pass).2 passes

omit [Host σ] in
/-- **What a pass left leads back from a copied character.** -/
theorem pushBackPass_of_copied {pass : Pass} {cx : Pass.Context} {u u' : SourceUnit} {l : Ledger} {path : Path}
    (h : Leaves pass cx u u' (l.fragment? path pass)) {i j : Nat} (hc : Copied pass cx u u' i j) :
    (l.pushBackPass path (Text.placeAfter (u'.text.toList.take i)) pass).line =
      (Text.placeAfter (u.text.toList.take j)).line ∧
      ((Text.placeAfter (u'.text.toList.take i)).column = 0 →
        l.pushBackPass path (Text.placeAfter (u'.text.toList.take i)) pass =
          Text.placeAfter (u.text.toList.take j)) := by
  unfold Ledger.pushBackPass
  generalize l.fragment? path pass = f at h
  cases h with
  | same =>
    rcases hc with ⟨-, rfl⟩ | ⟨hne, -⟩
    · exact ⟨rfl, fun _ => rfl⟩
    · exact absurd rfl hne
  | @rewritten es hes hne =>
    rcases hc with ⟨hsame, -⟩ | ⟨-, es', hes', hcopied⟩
    · exact absurd hsame hne
    · cases hes.symm.trans hes'
      have htake : (SourceUnit.parse u.path (String.ofList (pass.rewrite u es).1)).text.toList.take i =
          (EditScript.textOf (EditScript.pieces u.text.toList es)).take i := by
        change (String.ofList (pass.rewrite u es).1).toList.take i = _
        rw [String.toList_ofList]
        exact List.take_append_of_le_length (Nat.le_of_lt (EditScript.lt_length_of_copiedFrom hcopied))
      obtain ⟨o, hlocate, hline, hexact⟩ := EditScript.locate?_of_copiedFrom hcopied
      rw [EditScript.oldOf_pieces] at hline hexact
      have hpush : (pass.rewrite u es).2.pushBack
          (Text.placeAfter ((EditScript.textOf (EditScript.pieces u.text.toList es)).take i)) = o := by
        change ((EditScript.fragmentOf (EditScript.pieces u.text.toList es)).locate? _).getD _ = o
        rw [hlocate, Option.getD_some]
      rw [htake]
      dsimp only
      rw [hpush]
      exact ⟨hline, hexact⟩

omit [Host σ] in
/-- a fragment that a pass left for texts with 32-bit places has 32-bit places -/
theorem fits_of_leaves {pass : Pass} {cx : Pass.Context} {u u' : SourceUnit} {f : Fragment}
    (h : Leaves pass cx u u' (some f)) (hu : Text.Addressable u.text.toList) (hu' : Text.Addressable u'.text.toList) :
    f.Fits := by
  cases h with
  | @rewritten es hes hne =>
    refine EditScript.fits_fragmentOf (fun n => ?_) ?_
    · -- the places of the pieces are places of the text with its trailer
      have := hu' (min n (EditScript.textOf (EditScript.pieces u.text.toList es)).length)
      change Mappings.FitsPlace (Text.placeAfter ((String.ofList (pass.rewrite u es).1).toList.take _)) at this
      rw [String.toList_ofList] at this
      change Mappings.FitsPlace (Text.placeAfter ((EditScript.textOf _ ++ pass.trailer).take _)) at this
      rw [List.take_append_of_le_length (Nat.min_le_right _ _), ← List.take_eq_take_min] at this
      exact this
    · rw [EditScript.oldOf_pieces]
      exact hu

/-! ## What a run leaves of a unit -/

theorem carried_cons_iff {p : Pipeline σ} {g : Generation} {pass : Pass} {passes : List Pass} {path : Path}
    {u u' : SourceUnit} (hu : g.units.get? path = some u) (hu' : (p.runPass g pass).2.units.get? path = some u')
    {i j : Nat} :
    Carried path p g (pass :: passes) i j ↔
      ∃ m, Copied pass (p.context g) u u' m j ∧ Carried path (p.runPass g pass).1 (p.runPass g pass).2 passes i m := by
  constructor
  · rintro ⟨v, v', m, hv, hv', hcopied, hrest⟩
    cases hu.symm.trans hv
    cases hu'.symm.trans hv'
    exact ⟨m, hcopied, hrest⟩
  · rintro ⟨m, hcopied, hrest⟩
    exact ⟨u, u', m, hu, hu', hcopied, hrest⟩

/-- a pass alone, or nothing if it is not selected -/
def OnlyIfSelected (s : Pass.Selection) (pass : Pass) (passes : List Pass) : Prop :=
  (passes = [pass] ∧ pass ∈ s.passes) ∨ (passes = [] ∧ pass ∉ s.passes)

theorem exists_split_passes (s : Pass.Selection) :
    ∃ a b, s.passes = a ++ b ∧ OnlyIfSelected s .decoratorDownlevel a ∧ OnlyIfSelected s .closurize b := by
  obtain ⟨d, c⟩ := s
  cases d <;> cases c
  · exact ⟨[], [], rfl, Or.inr ⟨rfl, by decide⟩, Or.inr ⟨rfl, by decide⟩⟩
  · exact ⟨[], [.closurize], rfl, Or.inr ⟨rfl, by decide⟩, Or.inl ⟨rfl, by decide⟩⟩
  · exact ⟨[.decoratorDownlevel], [], rfl, Or.inl ⟨rfl, by decide⟩, Or.inr ⟨rfl, by decide⟩⟩
  · exact ⟨[.decoratorDownlevel], [.closurize], rfl, Or.inl ⟨rfl, by decide⟩, Or.inl ⟨rfl, by decide⟩⟩

theorem runEach_append (p : Pipeline σ) (g : Generation) (a b : List Pass) :
    p.runEach g (a ++ b) = (p.runEach g a).1.runEach (p.runEach g a).2 b := List.foldl_append

theorem hasFailed_of_runEach (passes : List Pass) : ∀ {p : Pipeline σ} {g : Generation} {path : Path},
    (p.runEach g passes).1.hasFailed path = false → p.hasFailed path = false := by
  induction passes with
  | nil => intro p g path h; exact h
  | cons pass passes ih => intro p g path h; exact hasFailed_of_runPass (ih h)

theorem mem_stages_append (a b : List Pass) : ∀ {p : Pipeline σ} {g s : Generation},
    s ∈ (p.runEach g a).1.stages (p.runEach g a).2 b → s ∈ p.stages g (a ++ b) := by
  induction a with
  | nil => intro p g s h; exact h
  | cons pass a ih => intro p g s h; exact List.mem_cons_of_mem _ (ih h)

theorem mem_stages_self (p : Pipeline σ) (g : Generation) (passes : List Pass) : g ∈ p.stages g passes := by
  cases passes <;> exact List.mem_cons_self

/-- what a pass leaves of a unit, whether it is selected or not -/
structure Stage (p : Pipeline σ) (g : Generation) (pass : Pass) (passes : List Pass) (u u' : SourceUnit)
    (cx : Pass.Context) : Prop where
  result : (p.runEach g passes).2.units.get? u.path = some u'
  leaves : Leaves pass cx u u' ((p.runEach g passes).1.ledger.fragment? u.path pass)
  others : ∀ other, other ≠ pass → (p.runEach g passes).1.ledger.fragment? u.path other =
      p.ledger.fragment? u.path other
  carried : ∀ {more : List Pass} {i j : Nat}, Carried u.path p g (passes ++ more) i j →
    ∃ m, Copied pass cx u u' m j ∧ Carried u.path (p.runEach g passes).1 (p.runEach g passes).2 more i m

theorem exists_stage {p : Pipeline σ} (hp : p.Settled) {g : Generation} (hg : g.Project) {pass : Pass}
    {passes : List Pass} (hpasses : OnlyIfSelected p.options.passes pass passes) {u : SourceUnit}
    (hu : u ∈ g.units.values) (hok : (p.runEach g passes).1.hasFailed u.path = false) :
    ∃ u' cx, Stage p g pass passes u u' cx := by
  rcases hpasses with ⟨rfl, -⟩ | ⟨rfl, hnot⟩
  · obtain ⟨u', hget, hleaves, hothers⟩ := leaves_of_runPass hg hu hok
    exact ⟨u', p.context g, hget, hleaves, hothers, fun hc => (carried_cons_iff (hg.get?_path hu) hget).1 hc⟩
  · refine ⟨u, p.context g, hg.get?_path hu, ?_, fun _ _ => rfl, fun hc => ⟨_, Or.inl ⟨rfl, rfl⟩, hc⟩⟩
    rw [show (p.runEach g []).1 = p from rfl, hp.selected u.path pass hnot]
    exact .same

/-- what both passes leave of a unit: a unit between them and one behind them -/
structure History (p : Pipeline σ) (g : Generation) (u mid last : SourceUnit) (cx cx' : Pass.Context) : Prop where
  first : Leaves .decoratorDownlevel cx u mid ((p.runPasses g).1.ledger.fragment? u.path .decoratorDownlevel)
  second : Leaves .closurize cx' mid last ((p.runPasses g).1.ledger.fragment? u.path .closurize)
  result : (p.runPasses g).2.units.get? u.path = some last
  mid_mem : ∃ s ∈ p.stages g p.options.passes.passes, mid ∈ s.units.values
  /-- a unit between the passes that is not the first one is what downleveling made of it -/
  downleveled : mid ≠ u → (p.runPass g .decoratorDownlevel).2.units.get? u.path = some mid
  carried : ∀ {i j : Nat}, Carried u.path p g p.options.passes.passes i j →
    ∃ m, Copied .closurize cx' mid last i m ∧ Copied .decoratorDownlevel cx u mid m j

/-- **What a run leaves of a unit no pass failed on.** -/
theorem exists_history {p : Pipeline σ} (hp : p.Settled) {g : Generation} (hg : g.Project) {u : SourceUnit}
    (hu : u ∈ g.units.values) (hok : (p.runPasses g).1.hasFailed u.path = false) :
    ∃ mid last cx cx', History p g u mid last cx cx' := by
  obtain ⟨a, b, hsplit, ha, hb⟩ := exists_split_passes p.options.passes
  have hrun : p.runPasses g = (p.runEach g a).1.runEach (p.runEach g a).2 b := by
    rw [runPasses_eq, hsplit, runEach_append]
  rw [hrun] at hok
  obtain ⟨mid, cx, hfirst⟩ := exists_stage hp hg ha hu (hasFailed_of_runEach b hok)
  -- the second pass starts with what the first one left
  have hg1 : (p.runEach g a).2.Project := project_runEach a hg
  have hsettled : (p.runEach g a).1.Settled := Settled.runEach a g hp fun pass hpass => by
    rw [hsplit]
    exact List.mem_append_left _ hpass
  have hmid := (hg1.mem_values hfirst.result).1
  have hb1 : OnlyIfSelected (p.runEach g a).1.options.passes .closurize b := by
    rw [(sameSetup_runEach a p g).options]
    exact hb
  have hpath := hfirst.leaves.path_eq
  rw [← hpath] at hok
  obtain ⟨last, cx', hsecond⟩ := exists_stage hsettled hg1 hb1 hmid hok
  have hleaves := hfirst.leaves
  rw [← hpath, ← hsecond.others .decoratorDownlevel (by decide), ← hrun] at hleaves
  refine ⟨mid, last, cx, cx', hpath ▸ hleaves, ?_, ?_, ⟨_, ?_, hmid⟩, fun hne => ?_, fun {i j} hc => ?_⟩
  · rw [hrun, ← hpath]
    exact hsecond.leaves
  · rw [hrun, ← hpath]
    exact hsecond.result
  · rw [hsplit]
    exact mem_stages_append a b (mem_stages_self _ _ _)
  · have hresult := hfirst.result
    rcases ha with ⟨rfl, -⟩ | ⟨rfl, -⟩
    · exact hresult
    · exact absurd (Option.some.inj (hresult.symm.trans (hg.get?_path hu))) hne
  · rw [hsplit] at hc
    obtain ⟨m, hcopied, hc⟩ := hfirst.carried hc
    rw [← List.append_nil b, ← hpath] at hc
    obtain ⟨n, hcopied', hend⟩ := hsecond.carried hc
    have : i = n := hend
    exact ⟨m, this ▸ hcopied', hcopied⟩

theorem mem_stages_last (p : Pipeline σ) (g : Generation) (passes : List Pass) :
    (p.runEach g passes).2 ∈ p.stages g passes := by
  have h := @mem_stages_append σ _ passes [] p g _ List.mem_cons_self
  rwa [List.append_nil] at h

/-! ## Lines -/

/-- the line that the fragments of a unit lead to from the first character of a line -/
theorem line_pushBack_of_history {p : Pipeline σ} {g : Generation} {u mid last : SourceUnit} {cx cx' : Pass.Context}
    (h : History p g u mid last cx cx') {l i j : Nat} (hstart : Text.StartsLine last.text.toList l i)
    (hc : Carried u.path p g p.options.passes.passes i j) :
    ((p.runPasses g).1.ledger.pushBack u.path ⟨l, 0⟩).line = Text.breaks (u.text.toList.take j) := by
  obtain ⟨m, hsecond, hfirst⟩ := h.carried hc
  have hplace := hstart.placeAfter_take
  have hnewest := (pushBackPass_of_copied h.second hsecond).2
  rw [hplace] at hnewest
  have holder := (pushBackPass_of_copied h.first hfirst).1
  rw [← hnewest rfl, Text.line_placeAfter] at holder
  exact holder

/-- the fragments of a unit have 32-bit places, if its texts have -/
theorem fits_of_history {p : Pipeline σ} (hp : p.Settled) {g : Generation} (hg : g.Project)
    (haddr : ∀ s ∈ p.stages g p.options.passes.passes, s.Addressable) {u mid last : SourceUnit}
    (hu : u ∈ g.units.values) {cx cx' : Pass.Context} (h : History p g u mid last cx cx') :
    ∀ e ∈ (p.runPasses g).1.ledger.get u.path, e.2.Fits := by
  obtain ⟨s, hs, hmid⟩ := h.mid_mem
  have hu1 := haddr g (mem_stages_self p g _) u hu
  have hu2 := haddr s hs mid hmid
  have hu3 := haddr _ (mem_stages_last p g _) last ((project_runEach _ hg).mem_values h.result).1
  intro e he
  rw [Ledger.get_eq_of_inOrder ((hp.runPasses g).ordered u.path)] at he
  obtain ⟨pass, -, hmap⟩ := List.mem_filterMap.1 he
  obtain ⟨f, hf, rfl⟩ := Option.map_eq_some_iff.1 hmap
  cases pass with
  | decoratorDownlevel => exact fits_of_leaves (hf ▸ h.first) hu1 hu2
  | closurize => exact fits_of_leaves (hf ▸ h.second) hu2 hu3

/-- the composed map of a unit, read back: the map of its last text, with the fragments of the unit folded in -/
theorem exists_composed {p : Pipeline MemoryHost} (hp : p.Settled) {g : Generation} (hg : g.Project)
    (haddr : ∀ s ∈ p.stages g p.options.passes.passes, s.Addressable) {e : Emitter} (hout : e.outDir.isAbsolute = true)
    {u mid last : SourceUnit} (hu : u ∈ g.units.values) {cx cx' : Pass.Context} (h : History p g u mid last cx cx') :
    ∃ composed m, mapOf e (p.runPasses g).1.ledger last = .ok composed ∧ SourceMap.parse composed = .ok m ∧ m.Indexed ∧
      (baseMap (e.outputPath u.path) last).Indexed ∧
      m.resolved = (baseMap (e.outputPath u.path) last).resolved.map fun entry =>
        (entry.1, entry.2.map fun found => ⟨sourceName (e.outputPath u.path) u.path,
          (p.runPasses g).1.ledger.pushBack u.path found.position, found.name⟩) := by
  have hpath : last.path = u.path := h.second.path_eq.trans h.first.path_eq
  have hproper := hg.proper_of_mem hu
  obtain ⟨above, stem, hside⟩ := exists_outputs e u.path
  have hkey : Ledger.sourceKey ({} : MemoryHost) (mapPath (e.outputPath u.path))
      (sourceName (e.outputPath u.path) u.path) = u.path := by
    rw [Ledger.sourceKey, hside.normalize_join_sourceName (Emitter.isAbsolute_outputPath hout _) hproper.absolute
      hproper.slashed, hproper.normal]
    exact hproper.normal
  have hlast := haddr _ (mem_stages_last p g _) last ((project_runEach _ hg).mem_values h.result).1
  have hparse := Emitter.parse_baseMap (e.outputPath u.path) (Emitter.mapLines_le hlast)
  have hi := (SourceMap.wellFormed_of_parse hparse).indexed
  have hsources := Emitter.sources_baseMap (e.outputPath u.path) last
  rw [hpath] at hsources
  have hfits : ∀ s ∈ (baseMap (e.outputPath u.path) last).sources,
      ∀ f ∈ (p.runPasses g).1.ledger.get (Ledger.sourceKey ({} : MemoryHost) (mapPath (e.outputPath u.path)) s),
        f.2.Fits := by
    intro s hs
    rw [hsources, List.mem_singleton] at hs
    rw [hs, hkey]
    exact fits_of_history hp hg haddr hu h
  obtain ⟨composed, hcompose, hread, -⟩ :=
    Ledger.exists_compose ({} : MemoryHost) (mapPath (e.outputPath u.path)) hparse hfits
  refine ⟨composed, _, ?_, hread, Ledger.indexed_foldl_foldIn _ hi, hi, ?_⟩
  · rw [mapOf, hpath]
    exact hcompose
  · rw [Ledger.resolved_foldl_pending (hp.runPasses g).ordered _ _ hi (by rw [hsources]; exact List.nodup_singleton _)]
    refine List.map_congr_left fun entry hentry => ?_
    have hmove : entry.2.map ((p.runPasses g).1.ledger.leadBack ({} : MemoryHost) (mapPath (e.outputPath u.path))) =
        entry.2.map fun found => ⟨sourceName (e.outputPath u.path) u.path,
          (p.runPasses g).1.ledger.pushBack u.path found.position, found.name⟩ := by
      refine Option.map_congr fun found hfound => ?_
      -- the only source is the unit
      have hsource := Ledger.source_mem_of_resolved hi hentry hfound
      rw [hsources, List.mem_singleton] at hsource
      rw [Ledger.leadBack, hsource, hkey]
    rw [hmove]

/-- the start of each line leads through the fragments of the unit -/
theorem exists_mapOf {p : Pipeline MemoryHost} (hp : p.Settled) {g : Generation} (hg : g.Project)
    (haddr : ∀ s ∈ p.stages g p.options.passes.passes, s.Addressable) {e : Emitter} (hout : e.outDir.isAbsolute = true)
    {u mid last : SourceUnit} (hu : u ∈ g.units.values) {cx cx' : Pass.Context} (h : History p g u mid last cx cx') :
    ∃ composed m, mapOf e (p.runPasses g).1.ledger last = .ok composed ∧ SourceMap.parse composed = .ok m ∧
      ∀ l, l < Emitter.mapLines last.text → m.lookup ⟨l, 0⟩ =
        some ⟨sourceName (e.outputPath u.path) u.path, (p.runPasses g).1.ledger.pushBack u.path ⟨l, 0⟩, none⟩ := by
  obtain ⟨composed, m, hcompose, hread, hm, hi, hresolved⟩ := exists_composed hp hg haddr hout hu h
  refine ⟨composed, m, hcompose, hread, fun l hl => ?_⟩
  rw [SourceMap.lookup_of_resolved hi hm hresolved, Emitter.lookup_baseMap _ hl, Option.map_some]

/-- the files of a result are the units no pass failed on -/
theorem files_of_run {p q : Pipeline σ} {g : Generation} {e : Emitter} {r : RunResult} (h : p.run g e = (.ok r, q)) :
    r.files = ((p.begun.runPasses g).2.units.values.filter fun u => !(p.begun.runPasses g).1.hasFailed u.path).map
      fun u => (u.path, u.text) := by
  have hnotes := (written_run p g e).sameNotes
  rw [h] at hnotes
  rw [run_eq] at h
  rcases hemit : (p.begun.runPasses g).1.emitAll e (p.begun.runPasses g).2.units.values with ⟨err | _, q'⟩
  · rw [hemit] at h
    cases h
  · rw [hemit] at h
    cases h
    simp only [resultOf, hnotes.hasFailed]

theorem mem_files_iff {p q : Pipeline σ} {g : Generation} {e : Emitter} {r : RunResult} (h : p.run g e = (.ok r, q))
    {path : Path} {text : String} :
    (path, text) ∈ r.files ↔
      ∃ u ∈ (p.begun.runPasses g).2.units.values, (p.begun.runPasses g).1.hasFailed u.path = false ∧ u.path = path ∧
        u.text = text := by
  rw [files_of_run h]
  simp [and_assoc]

/-- what the passes left of a unit that is written -/
theorem exists_history_of_emitted {p : Pipeline MemoryHost} (hp : p.Settled) {g : Generation} (hg : g.Project)
    {last : SourceUnit} (hlast : last ∈ (p.runPasses g).2.units.values) (hem : (p.runPasses g).1.Emitted last) :
    ∃ u ∈ g.units.values, u.path = last.path ∧ ∃ mid cx cx', History p g u mid last cx cx' := by
  obtain ⟨u, hu, hpath⟩ := exists_mem_of_runEach _ hlast
  obtain ⟨mid, last', cx, cx', hist⟩ := exists_history hp hg hu (hpath ▸ hem.1)
  have hsame : last' = last := by
    have hget := (project_runEach p.options.passes.passes hg).get?_path hlast
    rw [← hpath] at hget
    exact Option.some.inj (hist.result.symm.trans hget)
  exact ⟨u, hu, hpath, mid, cx, cx', hsame ▸ hist⟩

/-- **A run over a project in memory succeeds.** At each output stands a map composed of what the passes left. -/
theorem exists_run_mapped {p : Pipeline MemoryHost} (hp : p.Settled) {g : Generation} (hg : g.Project)
    (haddr : ∀ s ∈ p.begun.stages g p.options.passes.passes, s.Addressable) {e : Emitter}
    (hout : e.outDir.isAbsolute = true) :
    ∃ r q, p.run g e = (.ok r, q) ∧ ∀ u ∈ (p.begun.runPasses g).2.units.values, (p.begun.runPasses g).1.Emitted u →
      (p.begun.runPasses g).1.Mapped e (p.begun.runPasses g).2.units.values q.host u := by
  have hcompose : ∀ v ∈ (p.begun.runPasses g).2.units.values, (p.begun.runPasses g).1.Emitted v →
      ∃ composed, mapOf e (p.begun.runPasses g).1.ledger v = .ok composed := by
    intro v hv hem
    obtain ⟨u, hu, -, mid, cx, cx', hist⟩ := exists_history_of_emitted hp.begun hg hv hem
    obtain ⟨composed, -, hmap, -⟩ := exists_composed hp.begun hg haddr hout hu hist
    exact ⟨composed, hmap⟩
  obtain ⟨q, hemit, -, hmaps⟩ := emitAll_spec _ hcompose
  refine ⟨q.resultOf (p.begun.runPasses g).2, q, ?_, hmaps⟩
  rw [run_eq, hemit]

/-- the map of a unit whose output no other one shares is its own -/
theorem exists_run {p : Pipeline MemoryHost} (hp : p.Settled) {g : Generation} (hg : g.Project)
    (haddr : ∀ s ∈ p.begun.stages g p.options.passes.passes, s.Addressable) {e : Emitter}
    (hout : e.outDir.isAbsolute = true) :
    ∃ r q, p.run g e = (.ok r, q) ∧
      ∀ u ∈ (p.begun.runPasses g).2.units.values, (p.begun.runPasses g).1.Emitted u →
        (p.begun.runPasses g).1.Alone e (p.begun.runPasses g).2.units.values u →
        ∃ composed, mapOf e (p.begun.runPasses g).1.ledger u = .ok composed ∧
          Host.read? q.host (mapPath (e.outputPath u.path)) = some composed := by
  have hlast : (p.begun.runPasses g).2.Project := project_runEach _ hg
  obtain ⟨r, q, hrun, hmaps⟩ := exists_run_mapped hp hg haddr hout
  refine ⟨r, q, hrun, fun u hu hem halone => ?_⟩
  obtain ⟨v, hv, hemv, hsame, hmap⟩ := hmaps u hu hem
  have hget := hlast.get?_path hv
  rw [halone v hv hemv hsame, hlast.get?_path hu] at hget
  rw [← Option.some.inj hget] at hmap
  exact hmap

end Pipeline

/-- a unit that a run has written: its path and its last text -/
def RunResult.Emitted (r : RunResult) (path : Path) (text : String) : Prop :=
  (path, text) ∈ r.files ∧ path.isDeclarationFile = false

namespace Pipeline

open Emitter (mapPath sourceName)

/-- **Lines lead back.** Over every project in memory, from every pipeline that runs have led to, with any rules and any
selection of passes, a run succeeds. Take a unit it has written, to an output no other unit shares, and the first
character of a line of its last text. If every pass that rewrote the unit copied that character, and it stood on line
`k` of the first text, then the map that was written, read back, sends the start of the line to line `k` of the unit's
source. Places are pairs of 32-bit words, so the texts have to have such places. -/
theorem run_lines_lead_back {p : Pipeline MemoryHost} (hp : p.Reached) {g : Generation} (hg : g.Project) {e : Emitter}
    (hout : e.outDir.isAbsolute = true) (haddr : ∀ s ∈ p.begun.stages g p.options.passes.passes, s.Addressable) :
    ∃ r q, p.run g e = (.ok r, q) ∧ ∀ path text, r.Emitted path text →
      (∀ path' text', r.Emitted path' text' → (e.outputPath path').normalize = (e.outputPath path).normalize →
        path' = path) →
      ∀ first, g.units.get? path = some first → ∀ l k i j, Text.StartsLine text.toList l i →
        Carried path p.begun g p.options.passes.passes i j → Text.breaks (first.text.toList.take j) = k →
        ∃ map m column name, Host.read? q.host (mapPath (e.outputPath path)) = some map ∧ SourceMap.parse map = .ok m ∧
          m.lookup ⟨l, 0⟩ = some ⟨sourceName (e.outputPath path) path, ⟨k, column⟩, name⟩ := by
  obtain ⟨r, q, hrun, hmaps⟩ := exists_run hp.settled hg haddr hout
  refine ⟨r, q, hrun, fun path text hem hunique first hfirst l k i j hstart hcarried hline => ?_⟩
  obtain ⟨v, hv, hok, rfl, rfl⟩ := (mem_files_iff hrun).1 hem.1
  -- the unit as it was before the passes
  obtain ⟨hu, hsame⟩ := hg.mem_values hfirst
  have hlast : (p.begun.runPasses g).2.Project := project_runEach _ hg
  have hpath : first.path = v.path := ((hlast.proper_of_mem hv).eq_of_same (hg.proper_of_mem hu) hsame).symm
  rw [← hpath] at hok hcarried
  obtain ⟨mid, last, cx, cx', hist⟩ := exists_history hp.settled.begun hg hu hok
  have heq : last = v := by
    have hget := hlast.get?_path hv
    rw [← hpath, hist.result] at hget
    exact Option.some.inj hget
  subst heq
  obtain ⟨composed, m, hmap, hparse, hlookup⟩ := exists_mapOf hp.settled.begun hg haddr hout hu hist
  have hemitted : (p.begun.runPasses g).1.Emitted last := ⟨hpath ▸ hok, hem.2⟩
  have halone : (p.begun.runPasses g).1.Alone e (p.begun.runPasses g).2.units.values last := by
    intro w hw hemw
    exact hunique w.path w.text ⟨(mem_files_iff hrun).2 ⟨w, hw, hemw.1, rfl, rfl⟩, hemw.2⟩
  obtain ⟨composed', hmap', hread⟩ := hmaps last hv hemitted halone
  cases hmap.symm.trans hmap'
  have hplace : ((p.begun.runPasses g).1.ledger.pushBack first.path ⟨l, 0⟩).line = k := by
    rw [line_pushBack_of_history hist hstart hcarried, hline]
  refine ⟨composed, m, ((p.begun.runPasses g).1.ledger.pushBack first.path ⟨l, 0⟩).column, none, hread, hparse, ?_⟩
  rw [hlookup l (Emitter.lt_mapLines hstart), ← hpath, ← hplace]

/-- a class that gets a comment in front of it, and a unit that stays as it is -/
def exportedClass : Generation :=
  .ofUnits [.parse ⟨"/p/a.ts"⟩ "// a\nexport class A \x7b\n\x7d\n", .parse ⟨"/p/b.ts"⟩ "let b;\n"]

/-- a new pipeline with both passes -/
def newInMemory : Pipeline MemoryHost := { host := {}, policy := Policy.rules ⟨⟨"/p"⟩, none, [], []⟩, options := {} }

/-- the pipeline behind a run over a declaration file -/
def usedInMemory : Pipeline MemoryHost :=
  (newInMemory.run (.ofUnits [.parse ⟨"/p/d.d.ts"⟩ "declare class D \x7b\x7d\n"]) ⟨⟨"/p"⟩, ⟨"/o"⟩⟩).2

/-- the closing brace stood on line 2 and is on line 3, behind the comment -/
theorem run_lines_lead_back_exportedClass :
    usedInMemory.Reached ∧ exportedClass.Project ∧ ∃ r q map m column name,
      usedInMemory.run exportedClass ⟨⟨"/p"⟩, ⟨"/o"⟩⟩ = (.ok r, q) ∧
      r.files = [(⟨"/p/a.ts"⟩, "// a\n/** @export */\nexport class A \x7b\n\x7d\n"), (⟨"/p/b.ts"⟩, "let b;\n")] ∧
      Host.read? q.host ⟨"/o/a.js.map"⟩ = some map ∧ SourceMap.parse map = .ok m ∧
      m.lookup ⟨3, 0⟩ = some ⟨"../p/a.ts", ⟨2, column⟩, name⟩ := by
  have hp : usedInMemory.Reached := Reached.run (.fresh _ _ _) _ _
  have hg : exportedClass.Project := Generation.project_ofUnits (by decide +kernel)
  have hlengths : ∀ s ∈ usedInMemory.begun.stages exportedClass usedInMemory.options.passes.passes,
      ∀ u ∈ s.units.values, 2 * u.text.toList.length < Mappings.indexLimit := by decide +kernel
  obtain ⟨r, q, hrun, hlines⟩ := run_lines_lead_back hp hg (e := ⟨⟨"/p"⟩, ⟨"/o"⟩⟩) (by decide +kernel)
    fun s hs u hu => Text.addressable_of_length (hlengths s hs u hu)
  have hfiles :
      r.files = [(⟨"/p/a.ts"⟩, "// a\n/** @export */\nexport class A \x7b\n\x7d\n"), (⟨"/p/b.ts"⟩, "let b;\n")] := by
    rw [files_of_run hrun]
    decide +kernel
  have hpasses : usedInMemory.options.passes.passes = [.decoratorDownlevel, .closurize] := by decide +kernel
  -- the first pass leaves the unit alone, and the second one keeps all of its text
  have hcarried : Carried ⟨"/p/a.ts"⟩ usedInMemory.begun exportedClass usedInMemory.options.passes.passes 37 22 := by
    rw [hpasses]
    refine ⟨_, _, 22, (Option.some_get (by decide +kernel)).symm, (Option.some_get (by decide +kernel)).symm,
      Or.inl ⟨by decide +kernel, rfl⟩, ?_⟩
    refine ⟨_, _, 37, (Option.some_get (by decide +kernel)).symm, (Option.some_get (by decide +kernel)).symm,
      Or.inr ⟨?_, _, rfl, ?_⟩, rfl⟩
    · decide +kernel
    refine ⟨[.kept "// a\n".toList, .replaced [] "/** @export */\n".toList], "export class A \x7b\n".toList, '\x7d',
      ['\n'], [], ?_, ?_, ?_⟩
    · decide +kernel
    · decide +kernel
    · decide +kernel
  have hemitted : r.Emitted ⟨"/p/a.ts"⟩ "// a\n/** @export */\nexport class A \x7b\n\x7d\n" := by
    refine ⟨?_, by decide +kernel⟩
    rw [hfiles]
    exact List.mem_cons_self
  have hunique : ∀ path text, r.Emitted path text → (Emitter.outputPath ⟨⟨"/p"⟩, ⟨"/o"⟩⟩ path).normalize =
      (Emitter.outputPath ⟨⟨"/p"⟩, ⟨"/o"⟩⟩ ⟨"/p/a.ts"⟩).normalize → path = ⟨"/p/a.ts"⟩ := by
    rintro path text ⟨hmem, -⟩ hout
    rw [hfiles, List.mem_pair] at hmem
    rcases hmem with heq | heq
    · exact congrArg Prod.fst heq
    · cases heq
      exact absurd hout (by decide +kernel)
  obtain ⟨map, m, column, name, hread, hparse, hlookup⟩ :=
    hlines _ _ hemitted hunique _ (Option.some_get (by decide +kernel)).symm 3 2 37 22
    (by decide +kernel) hcarried (by decide +kernel)
  have hname : sourceName (Emitter.outputPath ⟨⟨"/p"⟩, ⟨"/o"⟩⟩ ⟨"/p/a.ts"⟩) ⟨"/p/a.ts"⟩ = "../p/a.ts" := by
    decide +kernel
  rw [hname] at hlookup
  exact ⟨hp, hg, r, q, map, m, column, name, hrun, hfiles, hread, hparse, hlookup⟩

end Pipeline

end ClosurePipeline
