/-
What passes see. A pass asks for the symbols of the unit it is on, and symbols are looked up in the generation and in
the host behind it. In two hosts in which all specifiers lead to the same files, passes see the same and take the same
notes.

- `resolve?_alike`: a name in a unit stands for the same symbol, though the two searches may have different fuel;
- `Pass.SeesAlike`, `applyPass_congr`: contexts that say the same about a file, and a pass in them;
- `Generation.Made`: the generations that there are; each unit is under its path and parsed from its text;
- `exists_notes_runEach`: passes over a generation, in two pipelines over such hosts.
-/
import Mathlib.Tactic
import ClosurePipeline.Proofs.Host.Outputs
import ClosurePipeline.Proofs.Pipeline.Notes
import ClosurePipeline.Proofs.Program.Symbol

namespace ClosurePipeline

open MemoryHost (Alike)

namespace Checker

open Search (visitIn mem_visitIn Pair Closed)

/-! ## Symbols -/

variable {cx cx' : Checker MemoryHost}

theorem insideSteps_congr (ha : Alike cx.host cx'.host) {file : Path} (hunit : cx'.unit? file = cx.unit? file)
    (name : String) :
    insideSteps cx' file name = insideSteps cx file name := by
  simp only [insideSteps, hunit, ha.resolve]

theorem steps_congr (ha : Alike cx.host cx'.host) {n : Pair} (hunit : cx'.unit? n.1 = cx.unit? n.1) :
    steps cx' n = steps cx n := by
  have hexport : exportSteps cx' n.1 n.2 = exportSteps cx n.1 n.2 := by
    funext e
    simp only [exportSteps, ha.resolve]
  simp only [steps, hunit, insideSteps_congr ha hunit, hexport]

/-- a file that some specifier leads to -/
def IsTarget (h : MemoryHost) (file : Path) : Prop :=
  ∃ specifier from_, Host.resolveDependency? h specifier from_ = some file

theorem unit?_of_isTarget (hgen : cx'.generation = cx.generation) (ha : Alike cx.host cx'.host) {file : Path}
    (ht : IsTarget cx.host file) :
    cx'.unit? file = cx.unit? file := by
  obtain ⟨specifier, from_, hr⟩ := ht
  simp only [unit?, hgen, ha.read specifier from_ file hr]

theorem isTarget_of_visitIn {h : MemoryHost} {specifier : String} {file : Path} {name : String} {m : Pair}
    (hm : (.visit m : Search.Step Symbol) ∈ visitIn (Host.resolveDependency? h specifier file) name) :
    IsTarget h m.1 := by
  obtain ⟨target, htarget, e⟩ := mem_visitIn.1 hm
  cases e
  exact ⟨specifier, file, htarget⟩

theorem isTarget_of_insideSteps {file : Path} {name : String} {m : Pair} (hm : .visit m ∈ insideSteps cx file name) :
    IsTarget cx.host m.1 := by
  obtain ⟨u, -, ⟨_, _, b, -, -, -, hv⟩ | ⟨-, d, -, e⟩ | ⟨-, -, b, -, -, hv⟩⟩ := mem_insideSteps.1 hm
  · exact isTarget_of_visitIn hv
  · cases e
  · exact isTarget_of_visitIn hv

/-- a visit looks at a file that a specifier leads to -/
theorem isTarget_of_steps {n m : Pair} (hm : .visit m ∈ steps cx n) : IsTarget cx.host m.1 := by
  obtain ⟨u, -, ⟨d, -, e⟩ | ⟨-, inner, -, hv⟩ | ⟨-, -, e, -, hv⟩⟩ := mem_steps.1 hm
  · cases e
  · exact isTarget_of_insideSteps hv
  · obtain ⟨spec, -, ⟨-, hv⟩ | ⟨bs, b, -, -, hv⟩⟩ := mem_exportSteps.1 hv
    · exact isTarget_of_visitIn hv
    · exact isTarget_of_visitIn hv

/-- **A name in a unit stands for the same symbol.** -/
theorem resolve?_alike (hgen : cx'.generation = cx.generation) (ha : Alike cx.host cx'.host) (hg : cx.generation.Parsed)
    {file : Path} (hfile : (cx.generation.units.get? file).isSome = true) (name : String) :
    cx'.resolve? file name = cx.resolve? file name := by
  classical
  have hg' : cx'.generation.Parsed := hgen ▸ hg
  -- the pairs that both searches can meet, looked at in files that specifiers lead to
  let names := "default" :: ((splitDot? name).map Prod.snd).toList
  let U := ((allPairs cx names).filter fun n => n ∈ allPairs cx' names ∧ IsTarget cx.host n.1).dedup
  have hmem : ∀ n, n ∈ U ↔ n ∈ allPairs cx names ∧ n ∈ allPairs cx' names ∧ IsTarget cx.host n.1 := by
    intro n
    simp [U]
  have hclosed := closed_allPairs hg (List.mem_cons_self : "default" ∈ names)
  have hclosed' := closed_allPairs hg' (List.mem_cons_self : "default" ∈ names)
  have hsteps : ∀ n ∈ U, steps cx n = steps cx' n :=
    fun n hn => (steps_congr ha (unit?_of_isTarget hgen ha ((hmem n).1 hn).2.2)).symm
  have hU : Closed (steps cx) U := by
    refine ⟨fun n hn m hm => ?_, fun n hn => hclosed.normal n ((hmem n).1 hn).1⟩
    refine (hmem m).2 ⟨hclosed.visit n ((hmem n).1 hn).1 m hm, hclosed'.visit n ((hmem n).1 hn).2.1 m ?_,
      isTarget_of_steps hm⟩
    rw [← hsteps n hn]
    exact hm
  have hstart : insideSteps cx' file name = insideSteps cx file name := by
    refine insideSteps_congr ha ?_ name
    obtain ⟨u, hu⟩ := Option.isSome_iff_exists.1 hfile
    simp only [unit?, hgen, hu, Option.some_or]
  have hrest : ∀ {c : Checker MemoryHost} head rest, splitDot? name = some (head, rest) → rest ∈ namesFrom c names := by
    intro c head rest hdot
    simp [names, namesFrom, hdot]
  have hin : ∀ m, .visit m ∈ insideSteps cx file name → m ∈ U := by
    intro m hm
    refine (hmem m).2 ⟨visit_mem_of_insideSteps hg List.mem_cons_self hrest hm, ?_, isTarget_of_insideSteps hm⟩
    exact visit_mem_of_insideSteps hg' List.mem_cons_self hrest (hstart ▸ hm)
  have hlength : names.length ≤ 4 := by
    change ("default" :: ((splitDot? name).map Prod.snd).toList).length ≤ 4
    cases splitDot? name <;> simp
  -- each search has fuel for them all
  have hfuel : ∀ c : Checker MemoryHost, U ⊆ allPairs c names → U.length ≤ c.depth := by
    intro c hsub
    exact ((List.nodup_dedup _).subperm hsub).length_le.trans (length_allPairs_le hlength)
  have hdepth := hfuel cx fun n hn => ((hmem n).1 hn).1
  have hdepth' := hfuel cx' fun n hn => ((hmem n).1 hn).2.1
  rw [resolve?_eq_follow, resolve?_eq_follow, hstart, Search.follow_congr hU hsteps hdepth hdepth' hin]

end Checker

/-! ## Passes -/

namespace Pass

/-- two contexts say the same about a file -/
structure SeesAlike (file : Path) (cx cx' : Context) : Prop where
  symbol : cx'.symbol? file = cx.symbol? file
  policy : cx'.policy = cx.policy

variable {cx cx' : Context} {unit : SourceUnit}

theorem Downlevel.apply_congr (h : SeesAlike unit.path cx cx') :
    Downlevel.apply cx' unit = Downlevel.apply cx unit := by
  have hedits : Downlevel.editsFor cx' unit = Downlevel.editsFor cx unit := by
    funext d
    simp only [Downlevel.editsFor, Downlevel.annotations, h.symbol]
  simp only [Downlevel.apply, Downlevel.edits, hedits]

theorem ClosureDocs.resolvesTo_congr {file : Path} (h : SeesAlike file cx cx') :
    ClosureDocs.resolvesTo cx' file = ClosureDocs.resolvesTo cx file := by
  funext kinds name
  simp only [ClosureDocs.resolvesTo, h.symbol]

theorem ClosureDocs.apply_congr (h : SeesAlike unit.path cx cx') :
    ClosureDocs.apply cx' unit = ClosureDocs.apply cx unit := by
  have hresolves := ClosureDocs.resolvesTo_congr h
  have htags : ClosureDocs.tagsFor cx' unit.path = ClosureDocs.tagsFor cx unit.path := by
    funext d
    simp only [ClosureDocs.tagsFor, ClosureDocs.allTags, ClosureDocs.classTags, ClosureDocs.interfaceTags, hresolves]
  have hedits : ClosureDocs.editsFor cx' unit = ClosureDocs.editsFor cx unit := by
    funext d
    simp only [ClosureDocs.editsFor, htags]
  have hsaid : ClosureDocs.diagnosticsFor cx' unit = ClosureDocs.diagnosticsFor cx unit := by
    funext d
    simp only [ClosureDocs.diagnosticsFor, ClosureDocs.implementsDiagnostics, hresolves]
  simp only [ClosureDocs.apply, ClosureDocs.diagnostics, hedits, hsaid, h.policy]

end Pass

/-! ## Generations -/

namespace Generation

theorem Parsed.successor {g : Generation} (hg : g.Parsed) {rs : List SourceUnit}
    (hrs : ∀ r ∈ rs, r.summary = .ofText r.text) :
    (g.successor rs).Parsed := by
  intro u hu
  exact (mem_values_successor rs hu).elim (hg u) (hrs u)

theorem parsed_loadFrom {σ : Type} [Host σ] (h : σ) (unmet : List Path) (waiting : List (Path × String))
    (units : PathTable SourceUnit) (hp : Parsed { units := units }) :
    Parsed { units := loadFrom h unmet waiting units } := by
  induction unmet, waiting, units using loadFrom.induct h with
  | case1 unmet units =>
    rw [loadFrom]
    exact hp
  | case2 unmet units path text waiting unit ih =>
    rw [loadFrom]
    apply ih
    intro u hu
    rcases PathTable.mem_values_insert hu with rfl | hu
    · rfl
    · exact hp u hu

/-- the generations that there are: of parsed units, loaded from a host, or made of another one -/
inductive Made : Generation → Prop where
  | ofUnits {units : List SourceUnit} (h : ∀ u ∈ units, u.summary = .ofText u.text) : Made (.ofUnits units)
  | loaded {σ : Type} [Host σ] {h : σ} {roots : List Path} {g : Generation} (hg : load h roots = .ok g) : Made g
  | successor {g : Generation} (hg : Made g) {rs : List SourceUnit} (hrs : ∀ r ∈ rs, r.summary = .ofText r.text) :
    Made (g.successor rs)

theorem Made.keyed {g : Generation} (hg : g.Made) : g.Keyed := by
  induction hg with
  | @ofUnits units _ => exact keyed_ofUnits units
  | loaded hg => exact keyed_load hg
  | successor _ _ ih => exact ih.successor _

theorem Made.parsed {g : Generation} (hg : g.Made) : g.Parsed := by
  induction hg with
  | @ofUnits units h =>
    intro u hu
    obtain ⟨e, he, rfl⟩ := List.mem_map.1 hu
    obtain ⟨v, hv, rfl⟩ := List.mem_map.1 ((PathTable.ofList_spec (units.map fun u : SourceUnit => (u.path, u))).2 e he)
    exact h v hv
  | @loaded σ _ h roots g hg =>
    unfold load at hg
    cases hr : readRoots h roots with
    | error err =>
      rw [hr] at hg
      cases hg
    | ok read =>
      rw [hr] at hg
      cases hg
      exact parsed_loadFrom h _ read.2 {} (by simp [Parsed, PathTable.values])
  | successor _ hrs ih => exact ih.successor hrs

end Generation

namespace Pipeline

theorem applyPass_congr {cx cx' : Pass.Context} {unit : SourceUnit} (h : Pass.SeesAlike unit.path cx cx')
    (pass : Pass) :
    applyPass pass cx' unit = applyPass pass cx unit := by
  cases pass with
  | decoratorDownlevel => exact Pass.Downlevel.apply_congr h
  | closurize => exact congrArg Except.ok (Pass.ClosureDocs.apply_congr h)

section

variable {σ : Type}

theorem summary_of_runOnUnits {pass : Pass} {cx : Pass.Context} (units : List SourceUnit) : ∀ p : Pipeline σ,
    ∀ r ∈ (runOnUnits pass cx p units).2, r.summary = .ofText r.text := by
  induction units with
  | nil => intro p r hr; cases hr
  | cons unit units ih =>
    intro p r hr
    rw [runOnUnits_cons] at hr
    rcases List.mem_append.1 hr with hr | hr
    · have hr := Option.mem_toList.1 hr
      rcases runOnUnit_cases pass cx p unit with ⟨-, e⟩ | ⟨fault, e⟩ | ⟨ds, xs, e⟩ | ⟨ds, xs, r', f, hleaves, e⟩
          <;> rw [e] at hr
      · cases hr
      · cases hr
      · cases hr
      · cases hr
        cases hleaves
        rfl
    · exact ih _ r hr

theorem parsed_runPass [Host σ] {p : Pipeline σ} {g : Generation} (hg : g.Parsed) (pass : Pass) :
    (p.runPass g pass).2.Parsed :=
  hg.successor (summary_of_runOnUnits _ p)

end

/-- a pass sees the same of the units of its generation -/
theorem seesAlike_context {p p' : Pipeline MemoryHost} (ha : Alike p.host p'.host) (hpolicy : p'.policy = p.policy)
    {g : Generation} (hk : g.Keyed) (hg : g.Parsed) {u : SourceUnit} (hu : u ∈ g.units.values) :
    Pass.SeesAlike u.path (p.context g) (p'.context g) := by
  refine ⟨?_, hpolicy⟩
  funext name
  have hknown : (g.units.get? u.path).isSome = true := by
    rw [hk.get?_path hu]
    rfl
  exact @Checker.resolve?_alike ⟨g, p.host⟩ ⟨g, p'.host⟩ rfl ha hg u.path hknown name

/-- **Passes take the same notes over hosts in which specifiers lead to the same files.** -/
theorem exists_notes_runEach (passes : List Pass) :
    ∀ {p p' : Pipeline MemoryHost} {g : Generation}, g.Keyed → g.Parsed → Alike p.host p'.host →
    p'.policy = p.policy → p'.failures = p.failures →
      ∃ (notes : List Note) (last : Generation), p.runEach g passes = (notes.foldl note p, last) ∧
        p'.runEach g passes = (notes.foldl note p', last) := by
  induction passes with
  | nil => intro p p' g _ _ _ _ _; exact ⟨[], g, rfl, rfl⟩
  | cons pass passes ih =>
    intro p p' g hk hg ha hpolicy hfailures
    have hsame : ∀ u ∈ g.units.values, applyPass pass (p.context g) u = applyPass pass (p'.context g) u := fun u hu =>
      (applyPass_congr (seesAlike_context ha hpolicy hk hg hu) pass).symm
    obtain ⟨notes, replaced, hnotes⟩ := exists_notes (σ := MemoryHost) g.units.values hsame p.policy p.failures
    have hpass : p.runPass g pass = (notes.foldl note p, g.successor replaced) := by
      simp only [runPass, (hnotes p rfl rfl).1]
    have hpass' : p'.runPass g pass = (notes.foldl note p', g.successor replaced) := by
      simp only [runPass, (hnotes p' hpolicy hfailures).2]
    -- notes leave hosts and rules alone, and add the same failures
    have hu := sameSetup_notes notes p
    have hu' := sameSetup_notes notes p'
    have hk' : (g.successor replaced).Keyed := hk.successor replaced
    have hg' : (g.successor replaced).Parsed := by
      have := parsed_runPass hg pass (p := p)
      rwa [hpass] at this
    have ha' : Alike (notes.foldl note p).host (notes.foldl note p').host := by rwa [hu.host, hu'.host]
    obtain ⟨more, last, h1, h2⟩ :=
      ih hk' hg' ha' (by rw [hu.policy, hu'.policy, hpolicy]) (by rw [failures_notes, failures_notes, hfailures])
    refine ⟨notes ++ more, last, ?_, ?_⟩
    · rw [runEach_cons, hpass, h1, List.foldl_append]
    · rw [runEach_cons, hpass', h2, List.foldl_append]

end Pipeline

end ClosurePipeline
