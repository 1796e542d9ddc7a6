/-
Externs over the runs of a pipeline. A pass that gives externs for a unit sets the unit's entry; nothing takes an entry
away. So after any runs the entry of a path is what the last run that gave externs for it gave, and a unit that has lost
its last ambient declaration keeps the old entry.

- `externText?_runOnUnits`: one pass over units;
- `closureOutput?`: what the last pass makes of a unit in a run; `externText?_run` is the step, one run;
- `externText?_afterRuns`: any runs, by induction over them;
- `externs_follow_latest_carrier`: the whole of it, for the units of the last run;
- `lost_declaration_keeps_externs`: a unit whose text no longer has ambient declarations, with an entry.
-/
import Mathlib.Tactic
import ClosurePipeline.Proofs.Pipeline.Lines
import ClosurePipeline.Proofs.Pipeline.Notes

namespace ClosurePipeline.Pipeline

variable {σ : Type}

/-! ## One pass -/

/-- the externs a pass gives for a unit -/
def externsFrom (pass : Pass) (cx : Pass.Context) (p : Pipeline σ) (unit : SourceUnit) : Option String :=
  if p.policy.skips unit.path || p.hasFailed unit.path then none else (applyPass pass cx unit).toOption.bind (·.externs)

theorem externs?_outcome (pass : Pass) (cx : Pass.Context) (skipped failed : Bool) (unit : SourceUnit) :
    (outcome pass cx skipped failed unit).1.bind Note.externs? =
      (if skipped || failed then none else (applyPass pass cx unit).toOption.bind (·.externs)).map
        fun text => (unit.path, text) := by
  unfold outcome
  cases skipped with
  | true => rfl
  | false =>
    cases failed with
    | true => rfl
    | false =>
      cases applyPass pass cx unit with
      | error fault => rfl
      | ok out => by_cases htext : out.text = unit.text <;> simp [htext, Note.externs?, Except.toOption]

/-- a pass on a unit sets the externs it gives -/
theorem externText?_runOnUnit (pass : Pass) (cx : Pass.Context) (p : Pipeline σ) (unit : SourceUnit) (path : Path) :
    externText? (runOnUnit pass cx p unit).1.externs path =
      if path.Same unit.path then (externsFrom pass cx p unit).or (externText? p.externs path)
        else externText? p.externs path := by
  have houtcome := externs?_outcome pass cx (p.policy.skips unit.path) (p.hasFailed unit.path) unit
  rw [runOnUnit_eq, externsFrom]
  generalize outcome pass cx (p.policy.skips unit.path) (p.hasFailed unit.path) unit = o at houtcome ⊢
  generalize (if p.policy.skips unit.path || p.hasFailed unit.path then none else _ : Option String) =
    given at houtcome ⊢
  have hgiven := overwriting_setExterns.get? ⟨p.externs⟩
  cases hnote : o.1 with
  | none =>
    rw [hnote, Option.bind_none, eq_comm, Option.map_eq_none_iff] at houtcome
    simp [houtcome]
  | some n =>
    rw [hnote, Option.bind_some] at houtcome
    change externText? (p.note n).externs path = _
    rw [externs_note, houtcome]
    cases given with
    | none => simp
    | some text =>
      rw [Option.some_or]
      exact hgiven (unit.path, text) path

/-- a unit before does not matter for what a pass gives for another one -/
theorem externsFrom_runOnUnit {pass : Pass} {cx : Pass.Context} {p : Pipeline σ} {unit v : SourceUnit}
    (h : ¬ v.path.Same unit.path) :
    externsFrom pass cx (runOnUnit pass cx p unit).1 v = externsFrom pass cx p v := by
  rw [externsFrom, externsFrom, (sameSetup_runOnUnit pass cx p unit).policy, (sameAt_runOnUnit h).failed]

/-- what a pass over units leaves at a path: what it gives for the unit there, or else what was there -/
theorem externText?_runOnUnits (pass : Pass) (cx : Pass.Context) (path : Path) (units : List SourceUnit) :
    ∀ p : Pipeline σ, units.Pairwise (fun u v => ¬ u.path.Same v.path) →
      externText? (runOnUnits pass cx p units).1.externs path =
      ((units.find? fun u => decide (path.Same u.path)).bind (externsFrom pass cx p)).or
        (externText? p.externs path) := by
  induction units with
  | nil => intro p _; rfl
  | cons unit units ih =>
    intro p hpairs
    obtain ⟨hhead, htail⟩ := List.pairwise_cons.1 hpairs
    rw [runOnUnits_cons, ih _ htail, externText?_runOnUnit]
    by_cases hs : path.Same unit.path
    · have hnone : units.find? (fun u => decide (path.Same u.path)) = none := by
        rw [List.find?_eq_none]
        intro v hv hc
        exact hhead v hv (hs.symm.trans (of_decide_eq_true hc))
      rw [hnone, List.find?_cons_of_pos (by simpa using hs), if_pos hs]
      rfl
    · rw [if_neg hs, List.find?_cons_of_neg (by simpa using hs)]
      congr 1
      refine Option.bind_congr fun v hv => ?_
      have hv' : path.Same v.path := by simpa using List.find?_some hv
      exact externsFrom_runOnUnit fun hc => hs (hv'.trans hc)

theorem externs_of_downlevel {cx : Pass.Context} {unit : SourceUnit} {out : Pass.Output}
    (h : applyPass .decoratorDownlevel cx unit = .ok out) :
    out.externs = none := by
  obtain ⟨es, -, rfl⟩ := exists_edits_of_downlevel h
  split_ifs
  · rfl
  · rfl

theorem externsFrom_downlevel (cx : Pass.Context) (p : Pipeline σ) (unit : SourceUnit) :
    externsFrom .decoratorDownlevel cx p unit = none := by
  unfold externsFrom
  split_ifs
  · rfl
  · cases h : applyPass .decoratorDownlevel cx unit with
    | error fault => rfl
    | ok out => exact externs_of_downlevel h

/-! ## One run -/

variable [Host σ]

/-- what a pass over a generation leaves at a path -/
theorem externText?_runPass (p : Pipeline σ) {g : Generation} (hg : g.Keyed) (pass : Pass) (path : Path) :
    externText? (p.runPass g pass).1.externs path =
      ((g.units.get? path).bind (externsFrom pass (p.context g) p)).or (externText? p.externs path) := by
  rw [← hg.find?_values]
  exact externText?_runOnUnits pass (p.context g) path g.units.values p hg.pairwise_values

/-- the pipeline and the generation that closurizing starts with in a run -/
def beforeClosurize (p : Pipeline σ) (g : Generation) : Pipeline σ × Generation :=
  p.begun.runEach g (p.options.passes.passes.filter (· ≠ .closurize))

/-- what closurizing makes of the unit of a path in a run; nothing of a unit that is skipped or that a pass has failed
on -/
def closureOutput? (p : Pipeline σ) (g : Generation) (path : Path) : Option Pass.Output :=
  match (p.beforeClosurize g).2.units.get? path with
  | none => none
  | some unit =>
    if p.policy.skips unit.path || (p.beforeClosurize g).1.hasFailed unit.path then none
    else some (Pass.ClosureDocs.apply ((p.beforeClosurize g).1.context (p.beforeClosurize g).2) unit)

/-- closurizing is the last pass of a run -/
theorem runPasses_eq_closurize {p : Pipeline σ} (hc : p.options.passes.closurize = true) (g : Generation) :
    p.begun.runPasses g = (p.beforeClosurize g).1.runPass (p.beforeClosurize g).2 .closurize := by
  obtain ⟨a, b, hsplit, ha, hb⟩ := exists_split_passes p.options.passes
  have hselected : Pass.closurize ∈ p.options.passes.passes := List.mem_filter.2 ⟨by decide, hc⟩
  rcases hb with ⟨rfl, -⟩ | ⟨-, hnot⟩
  · have hfilter : p.options.passes.passes.filter (· ≠ .closurize) = a := by
      rw [hsplit]
      rcases ha with ⟨rfl, -⟩ | ⟨rfl, -⟩ <;> rfl
    rw [beforeClosurize, hfilter, runPasses_eq, show p.begun.options = p.options from rfl, hsplit, runEach_append]
    rfl
  · exact absurd hselected hnot

theorem externs_beforeClosurize (p : Pipeline σ) {g : Generation} (hg : g.Keyed) (path : Path) :
    externText? (p.beforeClosurize g).1.externs path = externText? p.externs path := by
  obtain ⟨a, b, hsplit, ha, hb⟩ := exists_split_passes p.options.passes
  have hfilter : p.options.passes.passes.filter (· ≠ .closurize) = a := by
    rw [hsplit]
    rcases ha with ⟨rfl, -⟩ | ⟨rfl, -⟩ <;> rcases hb with ⟨rfl, -⟩ | ⟨rfl, -⟩ <;> rfl
  rw [beforeClosurize, hfilter]
  rcases ha with ⟨rfl, -⟩ | ⟨rfl, -⟩
  · change externText? (p.begun.runPass g .decoratorDownlevel).1.externs path = _
    rw [externText?_runPass p.begun hg]
    cases g.units.get? path with
    | none => rfl
    | some unit =>
      rw [Option.bind_some, externsFrom_downlevel]
      rfl
  · rfl

theorem sameSetup_beforeClosurize (p : Pipeline σ) (g : Generation) : SameSetup p (p.beforeClosurize g).1 := by
  have h := sameSetup_runEach (p.options.passes.passes.filter (· ≠ .closurize)) p.begun g
  exact ⟨h.host, h.policy, h.options, h.manifest⟩

/-- **One run.** At every path the externs are what closurizing gave for the unit there in this run, or else what they
were. -/
theorem externText?_run {p : Pipeline σ} (hc : p.options.passes.closurize = true) {g : Generation} (hg : g.Keyed)
    (e : Emitter) (path : Path) :
    externText? (p.run g e).2.externs path =
      ((p.closureOutput? g path).bind (·.externs)).or (externText? p.externs path) := by
  have hgiven : ((p.beforeClosurize g).2.units.get? path).bind
      (externsFrom .closurize ((p.beforeClosurize g).1.context (p.beforeClosurize g).2) (p.beforeClosurize g).1) =
        (p.closureOutput? g path).bind (·.externs) := by
    unfold closureOutput?
    cases (p.beforeClosurize g).2.units.get? path with
    | none => rfl
    | some unit =>
      rw [Option.bind_some, externsFrom, (sameSetup_beforeClosurize p g).policy]
      dsimp only
      split_ifs <;> rfl
  calc externText? (p.run g e).2.externs path
      = externText? (p.begun.runPasses g).1.externs path := by rw [(written_run p g e).sameNotes.externs]
    _ = (((p.beforeClosurize g).2.units.get? path).bind
          (externsFrom .closurize ((p.beforeClosurize g).1.context (p.beforeClosurize g).2) (p.beforeClosurize g).1)).or
            (externText? (p.beforeClosurize g).1.externs path) := by
        rw [runPasses_eq_closurize hc]
        exact externText?_runPass _ (keyed_runEach _ hg) _ _
    _ = ((p.closureOutput? g path).bind (·.externs)).or (externText? p.externs path) := by
      rw [hgiven, externs_beforeClosurize p hg]

theorem DistinctFiles.runPass {p : Pipeline σ} (h : DistinctFiles p.externs) (g : Generation) (pass : Pass) :
    DistinctFiles (p.runPass g pass).1.externs := by
  obtain ⟨notes, replaced, hnotes⟩ :=
    exists_notes g.units.values (fun _ _ => rfl : ∀ u ∈ g.units.values, applyPass pass (p.context g) u = _)
    p.policy p.failures
  rw [Pipeline.runPass, (hnotes p rfl rfl).1]
  exact h.notes notes

theorem DistinctFiles.runEach (passes : List Pass) : ∀ {p : Pipeline σ} (g : Generation), DistinctFiles p.externs →
    DistinctFiles (p.runEach g passes).1.externs := by
  induction passes with
  | nil => intro p g h; exact h
  | cons pass passes ih => intro p g h; exact ih _ (h.runPass g pass)

theorem DistinctFiles.run {p : Pipeline σ} (h : DistinctFiles p.externs) (g : Generation) (e : Emitter) :
    DistinctFiles (p.run g e).2.externs := by
  rw [(written_run p g e).sameNotes.externs]
  exact DistinctFiles.runEach _ g h

/-! ## Any runs -/

/-- a pipeline behind runs, whether they succeed or not -/
def afterRuns (p : Pipeline σ) (runs : List (Generation × Emitter)) : Pipeline σ :=
  runs.foldl (fun p r => (p.run r.1 r.2).2) p

/-- the externs that closurizing gave for a path, run by run -/
def givenExterns (p : Pipeline σ) : List (Generation × Emitter) → Path → List String
  | [], _ => []
  | (g, e) :: runs, path => ((p.closureOutput? g path).bind (·.externs)).toList ++ givenExterns (p.run g e).2 runs path

theorem options_run (p : Pipeline σ) (g : Generation) (e : Emitter) : (p.run g e).2.options = p.options := by
  rw [(written_run p g e).sameNotes.options]
  exact (sameSetup_runEach _ p.begun g).options

theorem options_afterRuns (runs : List (Generation × Emitter)) :
    ∀ p : Pipeline σ, (p.afterRuns runs).options = p.options := by
  induction runs with
  | nil => intro p; rfl
  | cons r runs ih => intro p; exact (ih _).trans (options_run p r.1 r.2)

theorem policy_afterRuns (runs : List (Generation × Emitter)) :
    ∀ p : Pipeline σ, (p.afterRuns runs).policy = p.policy := by
  induction runs with
  | nil => intro p; rfl
  | cons r runs ih =>
    intro p
    refine (ih _).trans ?_
    rw [(written_run p r.1 r.2).sameNotes.policy]
    exact (sameSetup_runEach _ p.begun r.1).policy

theorem DistinctFiles.afterRuns (runs : List (Generation × Emitter)) : ∀ {p : Pipeline σ}, DistinctFiles p.externs →
    DistinctFiles (p.afterRuns runs).externs := by
  induction runs with
  | nil => intro p h; exact h
  | cons r runs ih => intro p h; exact ih (h.run r.1 r.2)

/-- **Any runs.** At every path the externs are the last ones that were given for it, or what they were
before all runs. -/
theorem externText?_afterRuns (path : Path) (runs : List (Generation × Emitter)) :
    ∀ {p : Pipeline σ}, p.options.passes.closurize = true →
    (∀ r ∈ runs, r.1.Keyed) → externText? (p.afterRuns runs).externs path =
      (p.givenExterns runs path).getLast?.or (externText? p.externs path) := by
  induction runs with
  | nil => intro p _ _; rfl
  | cons r runs ih =>
    intro p hc hruns
    have hc' : (p.run r.1 r.2).2.options.passes.closurize = true := by rwa [options_run]
    change externText? ((p.run r.1 r.2).2.afterRuns runs).externs path = (_ ++ _ : List String).getLast?.or _
    rw [ih hc' fun s hs => hruns s (List.mem_cons_of_mem _ hs), externText?_run hc (hruns r List.mem_cons_self),
      List.getLast?_append, Option.or_assoc]
    congr 2
    cases (p.closureOutput? r.1 path).bind (·.externs) <;> rfl

/-- a unit that is neither skipped nor failed on is closurized -/
theorem exists_closureOutput {p : Pipeline σ} (hc : p.options.passes.closurize = true) {g : Generation} (hg : g.Keyed)
    {e : Emitter} {u : SourceUnit} (hu : u ∈ g.units.values) (hskip : p.policy.skips u.path = false)
    (hok : (p.run g e).2.hasFailed u.path = false) :
    ∃ out, p.closureOutput? g u.path = some out := by
  rw [(written_run p g e).sameNotes.hasFailed, runPasses_eq_closurize hc] at hok
  have hok' := hasFailed_of_runPass hok
  obtain ⟨unit, hget, hpath⟩ :=
    exists_unit_of_runEach (p.options.passes.passes.filter (· ≠ .closurize)) (p := p.begun) hg hu
  unfold closureOutput?
  rw [show (p.beforeClosurize g).2.units.get? u.path = some unit from hget]
  dsimp only
  rw [hpath, hskip, hok']
  exact ⟨_, rfl⟩

/-- **Externs follow the latest run that gave some.** Take a new pipeline that closurizes, any runs, and a last run over
any generation. Every unit of it that is not skipped and that no pass fails on is closurized in the last run. There is
an entry for its path with some text exactly if closurizing gave this text in the last run, or if it gave no externs
then and the latest earlier run that gave externs for the path gave this text. -/
theorem externs_follow_latest_carrier (host : σ) (policy : Rules) (options : PipelineOptions)
    (hc : options.passes.closurize = true) (runs : List (Generation × Emitter)) (hruns : ∀ r ∈ runs, r.1.Keyed)
    {g : Generation} (hg : g.Keyed) (e : Emitter) {u : SourceUnit} (hu : u ∈ g.units.values)
    (hskip : policy.skips u.path = false)
    (hok : ((fresh host policy options).afterRuns (runs ++ [(g, e)])).hasFailed u.path = false) :
    ∃ out, ((fresh host policy options).afterRuns runs).closureOutput? g u.path = some out ∧
      ∀ text, (∃ k, (k, text) ∈ ((fresh host policy options).afterRuns (runs ++ [(g, e)])).externs ∧ u.path.Same k) ↔
        out.externs = some text ∨
        (out.externs = none ∧ ((fresh host policy options).givenExterns runs u.path).getLast? = some text) := by
  have hlast : (fresh host policy options).afterRuns (runs ++ [(g, e)]) =
      (((fresh host policy options).afterRuns runs).run g e).2 :=
    List.foldl_concat ..
  have hdistinct : DistinctFiles ((fresh host policy options).afterRuns (runs ++ [(g, e)])).externs :=
    DistinctFiles.afterRuns _ List.Pairwise.nil
  have hc' : ((fresh host policy options).afterRuns runs).options.passes.closurize = true := by rwa [options_afterRuns]
  have hskip' : ((fresh host policy options).afterRuns runs).policy.skips u.path = false := by rwa [policy_afterRuns]
  rw [hlast] at hok
  obtain ⟨out, hout⟩ := exists_closureOutput hc' hg hu hskip' hok
  have hentry : externText? ((fresh host policy options).afterRuns (runs ++ [(g, e)])).externs u.path =
      out.externs.or (((fresh host policy options).givenExterns runs u.path).getLast?) := by
    rw [hlast, externText?_run hc' hg, externText?_afterRuns u.path runs (p := fresh host policy options) hc hruns,
      hout, Option.bind_some]
    congr 1
    exact Option.or_none
  refine ⟨out, hout, fun text => ?_⟩
  rw [← hdistinct.externText?_eq_some_iff, hentry, Option.or_eq_some_iff]

/-- a declaration file with one variable -/
def ambientUnit : SourceUnit := .parse ⟨"/p/lib.d.ts"⟩ "declare var X: any;\n"

/-- the same file without it -/
def emptiedUnit : SourceUnit := .parse ⟨"/p/lib.d.ts"⟩ "// X is gone\n"

/-- an emitter from `/p` to `/o` -/
def toOutputs : Emitter := ⟨⟨"/p"⟩, ⟨"/o"⟩⟩

theorem keyed_ambientRun : ∀ r ∈ [(Generation.ofUnits [ambientUnit], toOutputs)], r.1.Keyed := by
  intro r hr
  rw [List.mem_singleton.1 hr]
  exact Generation.keyed_ofUnits _

/-- closurizing gives no externs once the variable is gone -/
theorem closureOutput?_emptiedUnit :
    ((fresh newInMemory.host newInMemory.policy newInMemory.options).afterRuns
      [(.ofUnits [ambientUnit], toOutputs)]).closureOutput?
      (.ofUnits [emptiedUnit]) emptiedUnit.path = some { text := emptiedUnit.text } := by decide +kernel

/-- the variable is gone in the second run, and its externs are still there -/
theorem externs_follow_latest_carrier_emptiedUnit :
    (∀ r ∈ [(Generation.ofUnits [ambientUnit], toOutputs)], r.1.Keyed) ∧ (Generation.ofUnits [emptiedUnit]).Keyed ∧
      newInMemory.policy.skips emptiedUnit.path = false ∧
      ∃ out, (newInMemory.afterRuns [(.ofUnits [ambientUnit], toOutputs)]).closureOutput? (.ofUnits [emptiedUnit])
        emptiedUnit.path = some out ∧ out.externs = none ∧ ∃ k, (k, "/** @type \x7b?\x7d */\nvar X;\n") ∈
          (newInMemory.afterRuns [(.ofUnits [ambientUnit], toOutputs), (.ofUnits [emptiedUnit], toOutputs)]).externs ∧
          emptiedUnit.path.Same k := by
  have hskip : newInMemory.policy.skips emptiedUnit.path = false := by decide +kernel
  obtain ⟨out, hout, hentry⟩ :=
    externs_follow_latest_carrier newInMemory.host newInMemory.policy newInMemory.options (by decide)
    [(.ofUnits [ambientUnit], toOutputs)] keyed_ambientRun (Generation.keyed_ofUnits [emptiedUnit]) toOutputs
      (u := emptiedUnit) List.mem_cons_self hskip
    (by decide +kernel)
  cases hout.symm.trans closureOutput?_emptiedUnit
  exact ⟨keyed_ambientRun, Generation.keyed_ofUnits _, hskip, _, hout, rfl,
    (hentry _).2 (Or.inr ⟨rfl, by decide +kernel⟩)⟩

/-- an entry outlives the last ambient declaration of its file: there are externs where the last run gave none -/
theorem lost_declaration_keeps_externs :
    ¬ ∀ (policy : Rules) (options : PipelineOptions), options.passes.closurize = true → ∀ runs :
      List (Generation × Emitter), (∀ r ∈ runs, r.1.Keyed) →
      ∀ (g : Generation) (e : Emitter), g.Keyed → ∀ u ∈ g.units.values, policy.skips u.path = false →
      ((fresh ({} : MemoryHost) policy options).afterRuns (runs ++ [(g, e)])).hasFailed u.path = false →
      ∀ out, ((fresh ({} : MemoryHost) policy options).afterRuns runs).closureOutput? g u.path = some out →
      ∀ text, (∃ k, (k, text) ∈ ((fresh ({} : MemoryHost) policy options).afterRuns (runs ++ [(g, e)])).externs ∧
        u.path.Same k) ↔ out.externs = some text := by
  intro hall
  have hstale := hall newInMemory.policy newInMemory.options (by decide) [(.ofUnits [ambientUnit], toOutputs)]
    keyed_ambientRun (.ofUnits [emptiedUnit]) toOutputs (Generation.keyed_ofUnits _) emptiedUnit List.mem_cons_self
      (by decide +kernel) (by decide +kernel) _ closureOutput?_emptiedUnit
    "/** @type \x7b?\x7d */\nvar X;\n"
  have hentry : (emptiedUnit.path, "/** @type \x7b?\x7d */\nvar X;\n") ∈
      ((fresh newInMemory.host newInMemory.policy newInMemory.options).afterRuns
        ([(.ofUnits [ambientUnit], toOutputs)] ++ [(.ofUnits [emptiedUnit], toOutputs)])).externs := by decide +kernel
  have hgiven := hstale.1 ⟨_, hentry, Path.Same.refl _⟩
  cases hgiven

end ClosurePipeline.Pipeline
