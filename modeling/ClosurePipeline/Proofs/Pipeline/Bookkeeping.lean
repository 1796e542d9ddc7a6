/-
The books of a pipeline: the ledger of fragments, the failures and the externs. Passes, runs and outputs change them in
any order, and they stay in step.

- `Called`: the pipelines that calls lead to, from a new one;
- `runOnUnit_left`: a unit that is skipped or that a pass has failed on is left alone;
- `Kept`: what the ledger and the failures have in common. One pass on one unit keeps it (`Kept.runOnUnit`), and so do
  all calls (`Called.kept`);
- `keys_runPass`, `get?_runPass_left`: the generation a pass makes has the paths of the one it was given, and the units
  it left alone;
- `books_in_step`: the whole of it.
-/
import Mathlib.Tactic
import ClosurePipeline.Proofs.Pipeline.Externs
import ClosurePipeline.Proofs.Pipeline.Sight

namespace ClosurePipeline

/-! ## The ledger -/

namespace Ledger

/-- no unit is listed without fragments -/
def Filled (l : Ledger) : Prop := ∀ e ∈ l.entries.entries, e.2 ≠ []

theorem filled_empty : Filled {} := by
  intro e he
  cases he

theorem setFragment_ne_nil (pass : Pass) (f : Fragment) (es : List (Pass × Fragment)) : setFragment pass f es ≠ [] := by
  cases es with
  | nil => exact List.cons_ne_nil _ _
  | cons e es =>
    unfold setFragment
    split_ifs <;> exact List.cons_ne_nil _ _

theorem Filled.insert {l : Ledger} (h : l.Filled) (path : Path) {fragments : List (Pass × Fragment)}
    (hne : fragments ≠ []) :
    Filled ⟨l.entries.insert path fragments⟩ := by
  intro e he
  rcases PathTable.mem_insertWith he with rfl | he | ⟨d, -, -, rfl⟩
  · exact hne
  · exact h e he
  · exact hne

theorem Filled.record {l : Ledger} (h : l.Filled) (path : Path) (pass : Pass) (f : Fragment) :
    (l.record path pass f).Filled :=
  h.insert path (setFragment_ne_nil pass f _)

theorem Filled.forgetAll {l : Ledger} (h : l.Filled) (path : Path) :
    (l.forgetAll path).Filled := fun e he => h e (List.mem_filter.1 he).1

theorem Filled.forget {l : Ledger} (h : l.Filled) (path : Path) (pass : Pass) : (l.forget path pass).Filled := by
  unfold Ledger.forget
  split
  · exact h
  · split
    · exact h.forgetAll path
    · rename_i hne
      exact h.insert path hne

/-- **A ledger is empty exactly if no path has a fragment.** -/
theorem Filled.isEmpty_iff {l : Ledger} (h : l.Filled) : l.isEmpty = true ↔ ∀ path, l.get path = [] := by
  constructor
  · intro hempty path
    rw [get, PathTable.get?_eq, List.isEmpty_iff.1 hempty]
    rfl
  · intro hall
    by_contra hne
    obtain ⟨e, he⟩ := List.exists_mem_of_ne_nil _ fun hnil => hne (List.isEmpty_iff.2 hnil)
    -- the first entry of that path has fragments
    obtain ⟨d, hd⟩ : ∃ d, l.entries.entries.find? (fun d => decide (e.1.Same d.1)) = some d :=
      Option.isSome_iff_exists.1 (List.find?_isSome.2 ⟨e, he, decide_eq_true (Path.Same.refl _)⟩)
    refine h d (List.mem_of_find?_eq_some hd) ?_
    have hget := hall e.1
    rwa [get, PathTable.get?_eq, hd] at hget

end Ledger

/-! ## Units that are left alone -/

namespace Pipeline

section

variable {σ : Type}

theorem hasFailed_iff {p : Pipeline σ} {path : Path} :
    p.hasFailed path = true ↔ ∃ f ∈ p.failures, f.file.Same path := by
  simp [hasFailed]

theorem hasFailed_congr (p : Pipeline σ) {path path' : Path} (h : path.Same path') :
    p.hasFailed path = p.hasFailed path' := by
  rw [Bool.eq_iff_iff, hasFailed_iff, hasFailed_iff]
  exact ⟨fun ⟨f, hf, hs⟩ => ⟨f, hf, hs.trans h⟩, fun ⟨f, hf, hs⟩ => ⟨f, hf, hs.trans h.symm⟩⟩

/-- a unit that is skipped or that a pass has failed on keeps its text, and loses the fragment of the pass at most -/
theorem runOnUnit_left (pass : Pass) (cx : Pass.Context) {p : Pipeline σ} {unit : SourceUnit}
    (h : p.policy.skips unit.path = true ∨ p.hasFailed unit.path = true) :
    runOnUnit pass cx p unit = ({ p with ledger := p.ledger.forget unit.path pass }, none) ∨
    runOnUnit pass cx p unit = (p, none) := by
  unfold runOnUnit
  by_cases hskip : p.policy.skips unit.path = true
  · rw [if_pos hskip]
    exact Or.inl rfl
  · rw [if_neg hskip, if_pos (h.resolve_left hskip)]
    exact Or.inr rfl

/-- a unit that is replaced is not skipped, and no pass has failed on it, this one included -/
theorem not_left_of_replaced {pass : Pass} {cx : Pass.Context} {p : Pipeline σ} {unit r : SourceUnit}
    (h : (runOnUnit pass cx p unit).2 = some r) :
    p.policy.skips unit.path = false ∧ (runOnUnit pass cx p unit).1.hasFailed unit.path = false := by
  have hnot : ¬ (p.policy.skips unit.path = true ∨ p.hasFailed unit.path = true) := by
    intro hleft
    rcases runOnUnit_left pass cx hleft with e | e <;> rw [e] at h <;> cases h
  rw [not_or, Bool.not_eq_true, Bool.not_eq_true] at hnot
  refine ⟨hnot.1, ?_⟩
  rcases runOnUnit_cases pass cx p unit with ⟨-, e⟩ | ⟨fault, e⟩ | ⟨ds, xs, e⟩ | ⟨ds, xs, r', f, -, e⟩ <;> rw [e] at h ⊢
  · cases h
  · cases h
  · cases h
  · exact hnot.2

/-- a unit is not replaced if it is skipped, or if some pass has failed on it in the end -/
theorem not_replaced_of_runOnUnits {pass : Pass} {cx : Pass.Context} (units : List SourceUnit) : ∀ {p : Pipeline σ},
    units.Pairwise (fun u v => ¬ u.path.Same v.path) → ∀ u ∈ units,
      p.policy.skips u.path = true ∨ (runOnUnits pass cx p units).1.hasFailed u.path = true →
      ∀ r ∈ (runOnUnits pass cx p units).2, ¬ u.path.Same r.path := by
  induction units with
  | nil => intro p _ u hu; cases hu
  | cons unit units ih =>
    intro p hpairs u hu hleft r hr
    obtain ⟨hhead, htail⟩ := List.pairwise_cons.1 hpairs
    rw [runOnUnits_cons] at hleft hr
    rcases List.mem_append.1 hr with hr | hr
    · -- the first unit is replaced, so it is another one
      have hreplaced := Option.mem_toList.1 hr
      obtain ⟨hskip, hok⟩ := not_left_of_replaced hreplaced
      rw [path_of_runOnUnit hreplaced]
      rcases List.mem_cons.1 hu with rfl | hu
      · rcases hleft with hleft | hleft
        · rw [hskip] at hleft
          cases hleft
        · rw [(sameAt_runOnUnits pass cx units hhead _).failed, hok] at hleft
          cases hleft
      · exact fun hs => hhead u hu hs.symm
    · rcases List.mem_cons.1 hu with rfl | hu
      · obtain ⟨v, hv, e⟩ := List.mem_map.1 ((paths_runOnUnits pass cx units _).subset (List.mem_map_of_mem hr))
        rw [← e]
        exact hhead v hv
      · rw [← (sameSetup_runOnUnit pass cx p unit).policy] at hleft
        exact ih htail u hu hleft r hr

end

/-! ## What stays in step -/

section

variable {σ : Type}

/-- fragments are in pass order, a file that a pass has failed on has none, and each file has failed once at most -/
structure Kept (p : Pipeline σ) : Prop where
  ordered : p.ledger.Ordered
  filled : p.ledger.Filled
  cleared : ∀ path, p.hasFailed path = true → p.ledger.get path = []
  failedOnce : p.failures.Pairwise fun f f' => ¬ f.file.Same f'.file

theorem Kept.forget {p : Pipeline σ} (h : p.Kept) (path : Path) (pass : Pass) (ds : List Diagnostic)
    (xs : List (Path × String)) :
    Kept { p with ledger := p.ledger.forget path pass, diagnostics := ds, externs := xs } where
  ordered := h.ordered.forget path pass
  filled := h.filled.forget path pass
  cleared path' hfailed := by
    have hnone : p.ledger.get path' = [] := h.cleared path' hfailed
    rw [Ledger.get_forget, hnone]
    exact ite_self _
  failedOnce := h.failedOnce

/-- a fragment is recorded for a file that no pass has failed on -/
theorem Kept.record {p : Pipeline σ} (h : p.Kept) {path : Path} (hok : p.hasFailed path = false) (pass : Pass)
    (f : Fragment) (ds : List Diagnostic) (xs : List (Path × String)) :
    Kept { p with ledger := p.ledger.record path pass f, diagnostics := ds, externs := xs } where
  ordered := h.ordered.record path pass f
  filled := h.filled.record path pass f
  cleared path' hfailed := by
    have hne : ¬ path'.Same path := by
      intro hs
      rw [← hasFailed_congr p hs] at hok
      exact Bool.false_ne_true (hok.symm.trans hfailed)
    rw [Ledger.get_record, if_neg hne]
    exact h.cleared path' hfailed
  failedOnce := h.failedOnce

/-- a file that fails loses all its fragments -/
theorem Kept.fail {p : Pipeline σ} (h : p.Kept) {path : Path} (hok : p.hasFailed path = false) (pass : Pass)
    (fault : Pass.Fault) :
    Kept { p with ledger := p.ledger.forgetAll path, failures := p.failures ++ [⟨pass, path, fault⟩] } where
  ordered := h.ordered.forgetAll path
  filled := h.filled.forgetAll path
  cleared path' hfailed := by
    rw [Ledger.get_forgetAll]
    split_ifs with hs
    · rfl
    · obtain ⟨f, hf, hsame⟩ := hasFailed_iff.1 hfailed
      rcases List.mem_append.1 hf with hf | hf
      · exact h.cleared path' (hasFailed_iff.2 ⟨f, hf, hsame⟩)
      · rw [List.mem_singleton.1 hf] at hsame
        exact absurd hsame.symm hs
  failedOnce := by
    refine List.pairwise_append.2 ⟨h.failedOnce, List.pairwise_singleton _ _, fun f hf f' hf' hs => ?_⟩
    rw [List.mem_singleton.1 hf'] at hs
    exact Bool.false_ne_true (hok.symm.trans (hasFailed_iff.2 ⟨f, hf, hs⟩))

/-- **A pass on a unit keeps the books in step.** -/
theorem Kept.runOnUnit {p : Pipeline σ} (h : p.Kept) (pass : Pass) (cx : Pass.Context) (unit : SourceUnit) :
    (runOnUnit pass cx p unit).1.Kept := by
  by_cases hleft : p.policy.skips unit.path = true ∨ p.hasFailed unit.path = true
  · rcases runOnUnit_left pass cx hleft with e | e <;> rw [e]
    · exact h.forget unit.path pass p.diagnostics p.externs
    · exact h
  · have hok : p.hasFailed unit.path = false := Bool.not_eq_true _ ▸ fun hfailed => hleft (Or.inr hfailed)
    rcases runOnUnit_cases pass cx p unit with ⟨-, e⟩ | ⟨fault, e⟩ | ⟨ds, xs, e⟩ | ⟨ds, xs, r, f, -, e⟩ <;> rw [e]
    · exact h
    · exact h.fail hok pass fault
    · exact h.forget unit.path pass ds xs
    · exact h.record hok pass f ds xs

theorem Kept.runOnUnits (pass : Pass) (cx : Pass.Context) (units : List SourceUnit) : ∀ {p : Pipeline σ}, p.Kept →
    (runOnUnits pass cx p units).1.Kept := by
  induction units with
  | nil => intro p h; exact h
  | cons unit units ih =>
    intro p h
    rw [runOnUnits_cons]
    exact ih (h.runOnUnit pass cx unit)

theorem Kept.of_sameNotes {p q : Pipeline σ} (h : p.Kept) (hq : SameNotes p q) : q.Kept where
  ordered := hq.ledger ▸ h.ordered
  filled := hq.ledger ▸ h.filled
  cleared path hfailed := by
    rw [hq.ledger]
    exact h.cleared path (hq.hasFailed path ▸ hfailed)
  failedOnce := hq.failures ▸ h.failedOnce

/-- a run starts without failures -/
theorem Kept.begun [Host σ] {p : Pipeline σ} (h : p.Kept) : p.begun.Kept where
  ordered := h.ordered
  filled := h.filled
  cleared path hfailed := by cases hfailed
  failedOnce := List.Pairwise.nil

end

/-! ## Calls -/

variable {σ : Type} [Host σ]

/-- a new pipeline, and what calls make of it: passes over any generation, runs with any emitter, and outputs, in any
order -/
inductive Called : Pipeline σ → Prop where
  | fresh (host : σ) (policy : Rules) (options : PipelineOptions) : Called (.fresh host policy options)
  | passed {p : Pipeline σ} (h : Called p) (g : Generation) (pass : Pass) : Called (p.runPass g pass).1
  | ran {p q : Pipeline σ} (h : Called p) (g : Generation) (hq : Written (p.begun.runPasses g).1 q) : Called q
  | committed {p : Pipeline σ} (h : Called p) (path : Path) (text : String) : Called (p.commit path text).2

theorem Called.run {p : Pipeline σ} (h : p.Called) (g : Generation) (e : Emitter) :
    (p.run g e).2.Called := h.ran g (written_run p g e)

theorem Kept.runPass {p : Pipeline σ} (h : p.Kept) (g : Generation) (pass : Pass) :
    (p.runPass g pass).1.Kept := Kept.runOnUnits _ _ _ h

theorem Kept.runEach (passes : List Pass) :
    ∀ {p : Pipeline σ} (g : Generation), p.Kept → (p.runEach g passes).1.Kept := by
  induction passes with
  | nil => intro p g h; exact h
  | cons pass passes ih =>
    intro p g h
    rw [runEach_cons]
    exact ih _ (h.runPass g pass)

/-- **All calls keep the books in step.** -/
theorem Called.kept {p : Pipeline σ} (h : p.Called) : p.Kept := by
  induction h with
  | fresh host policy options => exact ⟨Ledger.ordered_empty, Ledger.filled_empty, fun _ _ => rfl, List.Pairwise.nil⟩
  | passed _ g pass ih => exact ih.runPass g pass
  | ran _ g hq ih => exact (ih.begun.runEach _ g).of_sameNotes hq.sameNotes
  | committed _ path text ih => exact ih.of_sameNotes (sameNotes_commit _ path text)

theorem Called.distinctFiles {p : Pipeline σ} (h : p.Called) : DistinctFiles p.externs := by
  induction h with
  | fresh host policy options => exact List.Pairwise.nil
  | passed _ g pass ih => exact ih.runPass g pass
  | @ran p q _ g hq ih =>
    rw [hq.sameNotes.externs]
    exact DistinctFiles.runEach _ (p := p.begun) g ih
  | committed _ path text ih =>
    rw [(sameNotes_commit _ path text).externs]
    exact ih

/-! ## Generations -/

/-- a generation that replaces units has the paths of the one before, spelled alike -/
theorem keys_successor {g : Generation} (hg : g.Keyed) {rs : List SourceUnit}
    (hrs : ∀ r ∈ rs, (g.units.get? r.path).isSome = true) :
    (g.successor rs).units.keys = g.units.keys := by
  have hfold : (g.successor rs).units = (rs.map fun u => (u.path, u)).foldl (fun t e => t.insert e.1 e.2) g.units := by
    rw [List.foldl_map]
    rfl
  rw [hfold]
  refine PathTable.overwriting_insert.keys_foldl _ hg.sorted fun e he => ?_
  obtain ⟨r, hr, rfl⟩ := List.mem_map.1 he
  exact hrs r hr

theorem keys_runPass (p : Pipeline σ) {g : Generation} (hg : g.Keyed) (pass : Pass) :
    (p.runPass g pass).2.units.keys = g.units.keys := by
  refine keys_successor hg fun r hr => ?_
  obtain ⟨u, hu, e⟩ :=
    List.mem_map.1 ((paths_runOnUnits pass (p.context g) g.units.values p).subset (List.mem_map_of_mem hr))
  rw [← e, hg.get?_path hu]
  rfl

/-- a pass leaves a unit as it is if it is skipped, or if some pass has failed on it in the end -/
theorem get?_runPass_left {p : Pipeline σ} {g : Generation} (hg : g.Keyed) {pass : Pass} {path : Path} {u : SourceUnit}
    (hu : g.units.get? path = some u)
    (hleft : p.policy.skips u.path = true ∨ (p.runPass g pass).1.hasFailed path = true) :
    (p.runPass g pass).2.units.get? path = some u := by
  obtain ⟨hmem, hsame⟩ := hg.mem_values hu
  rw [hasFailed_congr _ hsame] at hleft
  rw [← hu]
  refine Generation.get?_successor_of_not_same fun r hr hs => ?_
  exact not_replaced_of_runOnUnits g.units.values hg.pairwise_values u hmem hleft r hr (hsame.symm.trans hs)

/-- **The books of a pipeline stay in step.** Take any pipeline that passes over any generations, runs and outputs have
led to, in any order, from a new one. Every path has its fragments in pass order, one for each pass at most, and the
ledger is empty exactly if no path has any. A file that a pass has failed on has no fragments and is listed once; no
file has externs twice. A pass over any generation gives one with the same paths and the same roots, with the next
number, in which every unit is parsed from its text. The unit of a path is the one it was given if the unit is skipped,
or if a pass has failed on it, before or now. -/
theorem books_in_step {p : Pipeline σ} (h : p.Called) :
    (∀ path, (p.ledger.get path).Pairwise fun a b => a.1.rank < b.1.rank) ∧
    (p.ledger.isEmpty = true ↔ ∀ path, p.ledger.get path = []) ∧
      (∀ f ∈ p.failures, ∀ path, f.file.Same path → p.ledger.get path = []) ∧
      (p.failures.Pairwise fun f f' => ¬ f.file.Same f'.file) ∧
      (p.externs.Pairwise fun a b => ¬ a.1.Same b.1) ∧
      ∀ {g : Generation}, g.Made → ∀ pass : Pass,
        (p.runPass g pass).2.units.keys = g.units.keys ∧ (p.runPass g pass).2.roots = g.roots ∧
        (p.runPass g pass).2.number = g.number + 1 ∧
        (∀ u ∈ (p.runPass g pass).2.units.values, u.summary = .ofText u.text) ∧
        ∀ path u, g.units.get? path = some u →
          p.policy.skips u.path = true ∨ p.hasFailed path = true ∨ (p.runPass g pass).1.hasFailed path = true →
          (p.runPass g pass).2.units.get? path = some u := by
  have hkept := h.kept
  refine ⟨hkept.ordered, hkept.filled.isEmpty_iff, fun f hf path hs => hkept.cleared path (hasFailed_iff.2 ⟨f, hf, hs⟩),
    hkept.failedOnce, h.distinctFiles, fun {g} hg pass =>
      ⟨keys_runPass p hg.keyed pass, rfl, rfl, parsed_runPass hg.parsed pass, fun path u hu hleft => ?_⟩⟩
  -- a failure from before stays
  have hstays : p.hasFailed path = true → (p.runPass g pass).1.hasFailed path = true := by
    intro hfailed
    by_contra hok
    rw [hasFailed_of_runPass (by simpa using hok)] at hfailed
    cases hfailed
  refine get?_runPass_left hg.keyed hu ?_
  rcases hleft with hskip | hfailed | hfailed
  · exact Or.inl hskip
  · exact Or.inr (hstays hfailed)
  · exact Or.inr hfailed

/-- downleveling fails on a class without a body -/
def bodilessUnit : SourceUnit := .parse ⟨"/p/a.ts"⟩ "/** @Annotation */ function D() \x7b\x7d\n@D declare class A;\n"

/-- a class that gets a comment -/
def exportedUnit : SourceUnit := .parse ⟨"/p/b.ts"⟩ "export class B \x7b\x7d\n"

def withBodiless : Generation := .ofUnits [bodilessUnit, exportedUnit]

/-- the pipeline behind a run of both passes -/
def behindBodiless : Pipeline MemoryHost := (newInMemory.run withBodiless toOutputs).2

theorem made_withBodiless : withBodiless.Made := by
  refine .ofUnits fun u hu => ?_
  rcases List.mem_pair.1 hu with rfl | rfl <;> rfl

/-- one unit has failed and the other one has a fragment; another pass leaves the first one alone -/
theorem books_in_step_withBodiless :
    behindBodiless.Called ∧ withBodiless.Made ∧ behindBodiless.hasFailed bodilessUnit.path = true ∧
    behindBodiless.ledger.get bodilessUnit.path = [] ∧
      (behindBodiless.ledger.get exportedUnit.path).length = 1 ∧ behindBodiless.ledger.isEmpty = false ∧
      (behindBodiless.runPass withBodiless .closurize).2.units.get? bodilessUnit.path = some bodilessUnit := by
  have hcalled : behindBodiless.Called := Called.run (.fresh _ _ _) _ _
  obtain ⟨-, hempty, hcleared, -, -, hpass⟩ := books_in_step hcalled
  have hnotes := (written_run newInMemory withBodiless toOutputs).sameNotes
  have hfailed : behindBodiless.hasFailed bodilessUnit.path = true := by
    rw [behindBodiless, hnotes.hasFailed]
    decide +kernel
  have hfragment : (behindBodiless.ledger.get exportedUnit.path).length = 1 := by
    rw [behindBodiless, hnotes.ledger]
    decide +kernel
  obtain ⟨f, hf, hs⟩ := hasFailed_iff.1 hfailed
  refine ⟨hcalled, made_withBodiless, hfailed, hcleared f hf _ hs, hfragment, ?_, ?_⟩
  · rw [← Bool.not_eq_true, hempty]
    intro hall
    rw [hall] at hfragment
    cases hfragment
  · have hunit : withBodiless.units.get? bodilessUnit.path = some bodilessUnit :=
      made_withBodiless.keyed.get?_path List.mem_cons_self
    exact (hpass made_withBodiless .closurize).2.2.2.2 _ _ hunit (Or.inr (Or.inl hfailed))

end Pipeline

end ClosurePipeline
