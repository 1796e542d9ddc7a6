/-
What the passes of a run leave behind for a unit.

- `Pass.edits`: the edits a pass makes; `applyPass_cases` says that its output is the unit's text, if there are none, or
  the text and the fragment of these edits;
- `Leaves`: what a pass that does not fail leaves of a unit: the unit and no fragment, or a new text and its fragment;
- `leaves_of_runOnUnit`, `sameAt_runOnUnit`: one unit, and every other unit;
- `leaves_of_runPass`: a pass over a project, at the path of a unit it does not fail on;
- `Settled`: the ledger has fragments of selected passes only, in pass order. Passes keep it (`Settled.runEach`).
-/
import Mathlib.Tactic
import ClosurePipeline.Pipeline.Basic
import ClosurePipeline.Proofs.Pipeline.Ledger
import ClosurePipeline.Proofs.Program.Project

namespace ClosurePipeline

/-! ## One pass on one unit -/

namespace Pass

/-- the edits a pass makes to a unit -/
def edits (pass : Pass) (cx : Context) (unit : SourceUnit) : Except Fault (List Edit) :=
  match pass with
  | .decoratorDownlevel => Downlevel.edits cx unit
  | .closurize => .ok (unit.summary.declarations.flatMap (ClosureDocs.editsFor cx unit))

/-- what a pass puts behind a unit it changes -/
def trailer : Pass → List Char
  | .decoratorDownlevel => Downlevel.support.toList
  | .closurize => []

/-- the text and the fragment of a unit under edits -/
def rewrite (pass : Pass) (unit : SourceUnit) (es : List Edit) : List Char × Fragment :=
  EditScript.run unit.text.toList es pass.trailer

end Pass

namespace Pipeline

variable {σ : Type}

/-- all that the pass over decorators gives -/
theorem exists_edits_of_downlevel {cx : Pass.Context} {unit : SourceUnit} {out : Pass.Output}
    (h : applyPass .decoratorDownlevel cx unit = .ok out) :
    ∃ es, Pass.Downlevel.edits cx unit = .ok es ∧ out = if es.isEmpty then { text := unit.text } else
      { text := String.ofList (Pass.decoratorDownlevel.rewrite unit es).1,
        fragment := some (Pass.decoratorDownlevel.rewrite unit es).2 } := by
  cases hes : Pass.Downlevel.edits cx unit with
  | error fault =>
    simp only [applyPass, Pass.Downlevel.apply, hes, bind, Except.bind] at h
    cases h
  | ok es =>
    simp only [applyPass, Pass.Downlevel.apply, hes, bind, Except.bind] at h
    refine ⟨es, rfl, ?_⟩
    split_ifs at h ⊢
    · cases h
      rfl
    · cases h
      rfl

/-- a pass without edits gives the unit's text, and one with edits the text and the fragment of its edits -/
theorem applyPass_cases {pass : Pass} {cx : Pass.Context} {unit : SourceUnit} {out : Pass.Output}
    (h : applyPass pass cx unit = .ok out) :
    ∃ es, pass.edits cx unit = .ok es ∧ (es = [] ∧ out.text = unit.text ∨
      es ≠ [] ∧ out.text = String.ofList (pass.rewrite unit es).1 ∧ out.fragment = some (pass.rewrite unit es).2) := by
  cases pass with
  | decoratorDownlevel =>
    obtain ⟨es, hes, rfl⟩ := exists_edits_of_downlevel h
    refine ⟨es, hes, ?_⟩
    split_ifs with hempty
    · exact Or.inl ⟨List.isEmpty_iff.1 hempty, rfl⟩
    · exact Or.inr ⟨mt List.isEmpty_iff.2 hempty, rfl, rfl⟩
  | closurize =>
    cases h
    refine ⟨_, rfl, ?_⟩
    unfold Pass.ClosureDocs.apply
    dsimp only
    split_ifs with hempty
    · exact Or.inl ⟨List.isEmpty_iff.1 hempty, rfl⟩
    · exact Or.inr ⟨mt List.isEmpty_iff.2 hempty, rfl, rfl⟩

/-- what a pass leaves of a unit it does not fail on -/
inductive Leaves (pass : Pass) (cx : Pass.Context) (unit : SourceUnit) : SourceUnit → Option Fragment → Prop where
  | same : Leaves pass cx unit unit none
  | rewritten {es : List Edit} (hes : pass.edits cx unit = .ok es)
      (hne : String.ofList (pass.rewrite unit es).1 ≠ unit.text) :
      Leaves pass cx unit (.parse unit.path (String.ofList (pass.rewrite unit es).1)) (some (pass.rewrite unit es).2)

theorem Leaves.path_eq {pass : Pass} {cx : Pass.Context} {unit r : SourceUnit} {f : Option Fragment}
    (h : Leaves pass cx unit r f) :
    r.path = unit.path := by
  cases h <;> rfl

/-- two pipelines with the same host, policy, options and manifest -/
structure SameSetup (p q : Pipeline σ) : Prop where
  host : q.host = p.host
  policy : q.policy = p.policy
  options : q.options = p.options
  manifest : q.manifest = p.manifest

theorem SameSetup.refl (p : Pipeline σ) : SameSetup p p := ⟨rfl, rfl, rfl, rfl⟩

theorem SameSetup.trans {p q r : Pipeline σ} (h1 : SameSetup p q) (h2 : SameSetup q r) : SameSetup p r :=
  ⟨h2.host.trans h1.host, h2.policy.trans h1.policy, h2.options.trans h1.options, h2.manifest.trans h1.manifest⟩

/-- two pipelines that know the same about a path -/
structure SameAt (path : Path) (p q : Pipeline σ) : Prop where
  fragment : ∀ pass, q.ledger.fragment? path pass = p.ledger.fragment? path pass
  failed : q.hasFailed path = p.hasFailed path

theorem SameAt.refl (path : Path) (p : Pipeline σ) : SameAt path p p := ⟨fun _ => rfl, rfl⟩

theorem SameAt.trans {path : Path} {p q r : Pipeline σ} (h1 : SameAt path p q) (h2 : SameAt path q r) :
    SameAt path p r :=
  ⟨fun pass => (h2.fragment pass).trans (h1.fragment pass), h2.failed.trans h1.failed⟩

/-- the four things that can happen to a unit -/
theorem runOnUnit_cases (pass : Pass) (cx : Pass.Context) (p : Pipeline σ) (unit : SourceUnit) :
    (p.hasFailed unit.path = true ∧ runOnUnit pass cx p unit = (p, none)) ∨
    (∃ fault, runOnUnit pass cx p unit =
      ({ p with ledger := p.ledger.forgetAll unit.path, failures := p.failures ++ [⟨pass, unit.path, fault⟩] }, none)) ∨
    (∃ ds xs, runOnUnit pass cx p unit =
      ({ p with ledger := p.ledger.forget unit.path pass, diagnostics := ds, externs := xs }, none)) ∨
    ∃ ds xs r f, Leaves pass cx unit r (some f) ∧
      runOnUnit pass cx p unit =
        ({ p with ledger := p.ledger.record unit.path pass f, diagnostics := ds, externs := xs }, some r) := by
  unfold runOnUnit
  split_ifs with hskip hfailed
  · exact Or.inr (Or.inr (Or.inl ⟨p.diagnostics, p.externs, rfl⟩))
  · exact Or.inl ⟨hfailed, rfl⟩
  · split
    · rename_i fault _
      exact Or.inr (Or.inl ⟨fault, rfl⟩)
    · rename_i out hout
      unfold keepOutput
      dsimp only
      split_ifs with htext
      · exact Or.inr (Or.inr (Or.inl ⟨_, _, rfl⟩))
      · obtain ⟨es, hes, ⟨-, hsame⟩ | ⟨-, hnew, hfragment⟩⟩ := applyPass_cases hout
        · exact absurd hsame htext
        · rw [hfragment]
          refine Or.inr (Or.inr (Or.inr ⟨_, _, _, _, ?_, rfl⟩))
          rw [hnew] at htext ⊢
          exact .rewritten hes htext

theorem sameSetup_runOnUnit (pass : Pass) (cx : Pass.Context) (p : Pipeline σ) (unit : SourceUnit) :
    SameSetup p (runOnUnit pass cx p unit).1 := by
  rcases runOnUnit_cases pass cx p unit with ⟨-, e⟩ | ⟨fault, e⟩ | ⟨ds, xs, e⟩ | ⟨ds, xs, r, f, -, e⟩ <;> rw [e]
      <;> exact ⟨rfl, rfl, rfl, rfl⟩

/-- a pass on a unit changes nothing at other paths -/
theorem sameAt_runOnUnit {pass : Pass} {cx : Pass.Context} {p : Pipeline σ} {unit : SourceUnit} {path : Path}
    (h : ¬ path.Same unit.path) :
    SameAt path p (runOnUnit pass cx p unit).1 := by
  have h' : ¬ unit.path.Same path := fun hs => h hs.symm
  rcases runOnUnit_cases pass cx p unit with ⟨-, e⟩ | ⟨fault, e⟩ | ⟨ds, xs, e⟩ | ⟨ds, xs, r, f, -, e⟩ <;> rw [e]
  · exact SameAt.refl _ _
  · refine ⟨fun pass' => ?_, ?_⟩
    · rw [Ledger.fragment?_forgetAll, if_neg h]
    · simp [hasFailed, h']
  · exact ⟨fun pass' => by rw [Ledger.fragment?_forget, if_neg fun hc => h hc.1], rfl⟩
  · exact ⟨fun pass' => by rw [Ledger.fragment?_record, if_neg fun hc => h hc.1], rfl⟩

/-- a failure stays -/
theorem hasFailed_of_runOnUnit {pass : Pass} {cx : Pass.Context} {p : Pipeline σ} {unit : SourceUnit} {path : Path}
    (h : (runOnUnit pass cx p unit).1.hasFailed path = false) : p.hasFailed path = false := by
  rcases runOnUnit_cases pass cx p unit with ⟨-, e⟩ | ⟨fault, e⟩ | ⟨ds, xs, e⟩ | ⟨ds, xs, r, f, -, e⟩ <;> rw [e] at h
  · exact h
  · simp only [hasFailed, List.any_append, Bool.or_eq_false_iff] at h
    exact h.1
  · exact h
  · exact h

/-- what a pass on a unit leaves at the unit's path, if it does not fail -/
theorem leaves_of_runOnUnit {pass : Pass} {cx : Pass.Context} {p : Pipeline σ} {unit : SourceUnit}
    (hok : (runOnUnit pass cx p unit).1.hasFailed unit.path = false) :
    (∀ other, other ≠ pass → (runOnUnit pass cx p unit).1.ledger.fragment? unit.path other =
      p.ledger.fragment? unit.path other) ∧ Leaves pass cx unit ((runOnUnit pass cx p unit).2.getD unit)
        ((runOnUnit pass cx p unit).1.ledger.fragment? unit.path pass) := by
  rcases runOnUnit_cases pass cx p unit with ⟨hfailed, e⟩ | ⟨fault, e⟩ | ⟨ds, xs, e⟩ | ⟨ds, xs, r, f, hleaves, e⟩
      <;> rw [e] at hok ⊢
  · rw [hfailed] at hok
    cases hok
  · simp [hasFailed, Path.Same.refl] at hok
  · refine ⟨fun other hne => ?_, ?_⟩
    · rw [Ledger.fragment?_forget, if_neg fun hc => hne hc.2]
    · rw [Ledger.fragment?_forget, if_pos ⟨Path.Same.refl _, rfl⟩]
      exact .same
  · refine ⟨fun other hne => ?_, ?_⟩
    · rw [Ledger.fragment?_record, if_neg fun hc => hne hc.2]
    · rw [Ledger.fragment?_record, if_pos ⟨Path.Same.refl _, rfl⟩]
      exact hleaves

/-! ## One pass on all units -/

theorem runOnUnits_cons (pass : Pass) (cx : Pass.Context) (p : Pipeline σ) (unit : SourceUnit)
    (units : List SourceUnit) :
    runOnUnits pass cx p (unit :: units) = ((runOnUnits pass cx (runOnUnit pass cx p unit).1 units).1,
      (runOnUnit pass cx p unit).2.toList ++ (runOnUnits pass cx (runOnUnit pass cx p unit).1 units).2) := rfl

theorem sameSetup_runOnUnits (pass : Pass) (cx : Pass.Context) (units : List SourceUnit) : ∀ p : Pipeline σ,
    SameSetup p (runOnUnits pass cx p units).1 := by
  induction units with
  | nil => intro p; exact SameSetup.refl p
  | cons unit units ih =>
    intro p
    rw [runOnUnits_cons]
    exact (sameSetup_runOnUnit pass cx p unit).trans (ih _)

theorem sameAt_runOnUnits (pass : Pass) (cx : Pass.Context) {path : Path} (units : List SourceUnit)
    (h : ∀ u ∈ units, ¬ path.Same u.path) :
    ∀ p : Pipeline σ, SameAt path p (runOnUnits pass cx p units).1 := by
  induction units with
  | nil => intro p; exact SameAt.refl path p
  | cons unit units ih =>
    intro p
    rw [runOnUnits_cons]
    exact (sameAt_runOnUnit (h unit List.mem_cons_self)).trans (ih (fun u hu => h u (List.mem_cons_of_mem _ hu)) _)

theorem path_of_runOnUnit {pass : Pass} {cx : Pass.Context} {p : Pipeline σ} {unit r : SourceUnit}
    (h : (runOnUnit pass cx p unit).2 = some r) :
    r.path = unit.path := by
  rcases runOnUnit_cases pass cx p unit with ⟨-, e⟩ | ⟨fault, e⟩ | ⟨ds, xs, e⟩ | ⟨ds, xs, r', f, hleaves, e⟩
      <;> rw [e] at h
  · cases h
  · cases h
  · cases h
  · cases h
    exact hleaves.path_eq

/-- the paths replaced are paths of units, in order -/
theorem paths_runOnUnits (pass : Pass) (cx : Pass.Context) (units : List SourceUnit) : ∀ p : Pipeline σ,
    ((runOnUnits pass cx p units).2.map (·.path)).Sublist (units.map (·.path)) := by
  induction units with
  | nil => intro p; exact List.Sublist.refl _
  | cons unit units ih =>
    intro p
    rw [runOnUnits_cons, List.map_cons]
    cases hr : (runOnUnit pass cx p unit).2 with
    | none => exact (ih _).cons _
    | some r =>
      rw [Option.toList_some, List.singleton_append, List.map_cons, path_of_runOnUnit hr]
      exact (ih _).cons_cons _

theorem hasFailed_of_runOnUnits {pass : Pass} {cx : Pass.Context} {path : Path} (units : List SourceUnit) :
    ∀ {p : Pipeline σ},
    (runOnUnits pass cx p units).1.hasFailed path = false → p.hasFailed path = false := by
  induction units with
  | nil => intro p h; exact h
  | cons unit units ih => intro p h; exact hasFailed_of_runOnUnit (ih h)

/-- what a pass leaves of one of the units, if it does not fail on it -/
theorem leaves_of_runOnUnits {pass : Pass} {cx : Pass.Context} (units : List SourceUnit) :
    ∀ {p : Pipeline σ}, units.Pairwise (fun u v => ¬ u.path.Same v.path) →
      ∀ u ∈ units, (runOnUnits pass cx p units).1.hasFailed u.path = false →
      ∃ r : Option SourceUnit,
        (∀ other, other ≠ pass → (runOnUnits pass cx p units).1.ledger.fragment? u.path other =
          p.ledger.fragment? u.path other) ∧
        Leaves pass cx u (r.getD u) ((runOnUnits pass cx p units).1.ledger.fragment? u.path pass) ∧
        (∀ x, r = some x → x ∈ (runOnUnits pass cx p units).2) ∧
        (r = none → ∀ x ∈ (runOnUnits pass cx p units).2, ¬ u.path.Same x.path) := by
  induction units with
  | nil => intro p _ u hu; cases hu
  | cons unit units ih =>
    intro p hpairs u hu hok
    obtain ⟨hhead, htail⟩ := List.pairwise_cons.1 hpairs
    rw [runOnUnits_cons] at hok ⊢
    rcases List.mem_cons.1 hu with rfl | hu
    · -- later units leave the first one's path alone
      have hlater := sameAt_runOnUnits pass cx units hhead (runOnUnit pass cx p u).1
      rw [hlater.failed] at hok
      obtain ⟨hother, hleaves⟩ := leaves_of_runOnUnit hok
      refine ⟨(runOnUnit pass cx p u).2, fun other hne => (hlater.fragment other).trans (hother other hne), ?_,
        fun x hx => ?_, fun hr x hx => ?_⟩
      · rw [hlater.fragment]
        exact hleaves
      · rw [hx]
        exact List.mem_append_left _ List.mem_cons_self
      · rw [hr, Option.toList_none, List.nil_append] at hx
        obtain ⟨v, hv, e⟩ := List.mem_map.1 ((paths_runOnUnits pass cx units _).subset (List.mem_map_of_mem hx))
        rw [← e]
        exact hhead v hv
    · -- and the first one leaves theirs alone
      have hfirst : SameAt u.path p (runOnUnit pass cx p unit).1 := sameAt_runOnUnit fun hs => hhead u hu hs.symm
      obtain ⟨r, hother, hleaves, hsome, hnone⟩ := ih htail u hu hok
      refine ⟨r, fun other hne => (hother other hne).trans (hfirst.fragment other), hleaves, fun x hx => ?_,
        fun hr x hx => ?_⟩
      · exact List.mem_append_right _ (hsome x hx)
      · rcases List.mem_append.1 hx with hx | hx
        · rw [path_of_runOnUnit (Option.mem_toList.1 hx)]
          exact fun hs => hhead u hu hs.symm
        · exact hnone hr x hx

/-! ## What a ledger may hold -/

/-- fragments of selected passes only, in pass order -/
structure Settled (p : Pipeline σ) : Prop where
  ordered : p.ledger.Ordered
  selected : ∀ path pass, pass ∉ p.options.passes.passes → p.ledger.fragment? path pass = none

theorem Settled.runOnUnit {p : Pipeline σ} (h : p.Settled) {pass : Pass} (hpass : pass ∈ p.options.passes.passes)
    (cx : Pass.Context) (unit : SourceUnit) : (Pipeline.runOnUnit pass cx p unit).1.Settled := by
  rcases runOnUnit_cases pass cx p unit with ⟨-, e⟩ | ⟨fault, e⟩ | ⟨ds, xs, e⟩ | ⟨ds, xs, r, f, -, e⟩ <;> rw [e]
  · exact h
  · refine ⟨h.ordered.forgetAll _, fun path other hother => ?_⟩
    rw [Ledger.fragment?_forgetAll, h.selected path other hother, ite_self]
  · refine ⟨h.ordered.forget _ _, fun path other hother => ?_⟩
    rw [Ledger.fragment?_forget, h.selected path other hother, ite_self]
  · refine ⟨h.ordered.record _ _ _, fun path other hother => ?_⟩
    have hne : other ≠ pass := fun e => hother (e ▸ hpass)
    rw [Ledger.fragment?_record, if_neg fun hc => hne hc.2]
    exact h.selected path other hother

theorem Settled.runOnUnits {pass : Pass} (cx : Pass.Context) (units : List SourceUnit) : ∀ {p : Pipeline σ}, p.Settled →
    pass ∈ p.options.passes.passes → (Pipeline.runOnUnits pass cx p units).1.Settled := by
  induction units with
  | nil => intro p h _; exact h
  | cons unit units ih =>
    intro p h hpass
    rw [runOnUnits_cons]
    refine ih (h.runOnUnit hpass cx unit) ?_
    rw [(sameSetup_runOnUnit pass cx p unit).options]
    exact hpass

/-! ## Passes over a generation -/

variable [Host σ]

theorem sameSetup_runPass (p : Pipeline σ) (g : Generation) (pass : Pass) :
    SameSetup p (p.runPass g pass).1 := sameSetup_runOnUnits _ _ _ p

/-- a pass keeps a project -/
theorem project_runPass {p : Pipeline σ} {g : Generation} (hg : g.Project) (pass : Pass) :
    (p.runPass g pass).2.Project := by
  refine hg.successor fun r hr => ?_
  obtain ⟨u, hu, e⟩ :=
    List.mem_map.1 ((paths_runOnUnits pass (p.context g) g.units.values p).subset (List.mem_map_of_mem hr))
  rw [← e]
  exact hg.proper_of_mem hu

/-- the units a pass replaces have different paths -/
theorem pairwise_replaced {p : Pipeline σ} {g : Generation} (hg : g.Keyed) (pass : Pass) :
    (runOnUnits pass (p.context g) p g.units.values).2.Pairwise fun u v => ¬ u.path.Same v.path := by
  have hpaths : (g.units.values.map (·.path)).Pairwise fun a b => ¬ a.Same b := List.pairwise_map.2 hg.pairwise_values
  exact List.pairwise_map.1 (hpaths.sublist (paths_runOnUnits pass (p.context g) g.units.values p))

theorem keyed_runPass {p : Pipeline σ} {g : Generation} (hg : g.Keyed) (pass : Pass) :
    (p.runPass g pass).2.Keyed := hg.successor _

/-- a pass keeps the path of each unit -/
theorem exists_unit_of_runPass {p : Pipeline σ} {g : Generation} (hg : g.Keyed) (pass : Pass) {u : SourceUnit}
    (hu : u ∈ g.units.values) :
    ∃ u', (p.runPass g pass).2.units.get? u.path = some u' ∧ u'.path = u.path := by
  by_cases hr : ∃ r ∈ (runOnUnits pass (p.context g) p g.units.values).2, u.path.Same r.path
  · obtain ⟨r, hr, hsame⟩ := hr
    obtain ⟨v, hv, hvr⟩ :=
      List.mem_map.1 ((paths_runOnUnits pass (p.context g) g.units.values p).subset (List.mem_map_of_mem hr))
    -- the unit it replaces is this one
    have hvu : v = u := by
      have hget := hg.get?_path hv
      rw [PathTable.get?_congr _ (show v.path.Same u.path from hvr ▸ hsame.symm), hg.get?_path hu] at hget
      exact (Option.some.inj hget).symm
    have hpath : r.path = u.path := hvr.symm.trans (congrArg SourceUnit.path hvu)
    exact ⟨r, hpath ▸ Generation.get?_successor_of_mem (pairwise_replaced hg pass) hr, hpath⟩
  · refine ⟨u, ?_, rfl⟩
    rw [← hg.get?_path hu]
    exact Generation.get?_successor_of_not_same fun r hmem hs => hr ⟨r, hmem, hs⟩

/-- **What a pass over a project leaves at the path of a unit it does not fail on.** -/
theorem leaves_of_runPass {p : Pipeline σ} {g : Generation} (hg : g.Project) {pass : Pass} {u : SourceUnit}
    (hu : u ∈ g.units.values) (hok : (p.runPass g pass).1.hasFailed u.path = false) :
    ∃ u', (p.runPass g pass).2.units.get? u.path = some u' ∧
      Leaves pass (p.context g) u u' ((p.runPass g pass).1.ledger.fragment? u.path pass) ∧
      ∀ other, other ≠ pass → (p.runPass g pass).1.ledger.fragment? u.path other = p.ledger.fragment? u.path other := by
  obtain ⟨r, hother, hleaves, hsome, hnone⟩ := leaves_of_runOnUnits g.units.values hg.pairwise_values u hu hok
  refine ⟨r.getD u, ?_, hleaves, hother⟩
  cases hr : r with
  | none =>
    rw [Option.getD_none, ← hg.get?_path hu]
    exact Generation.get?_successor_of_not_same (hnone hr)
  | some x =>
    rw [hr] at hleaves
    rw [Option.getD_some, ← hleaves.path_eq]
    exact Generation.get?_successor_of_mem (pairwise_replaced hg.toKeyed pass) (hsome x hr)

theorem hasFailed_of_runPass {p : Pipeline σ} {g : Generation} {pass : Pass} {path : Path}
    (h : (p.runPass g pass).1.hasFailed path = false) :
    p.hasFailed path = false := hasFailed_of_runOnUnits _ h

/-- a pass adds no paths -/
theorem exists_mem_of_runPass {p : Pipeline σ} {g : Generation} {pass : Pass} {u' : SourceUnit}
    (hu : u' ∈ (p.runPass g pass).2.units.values) :
    ∃ u ∈ g.units.values, u.path = u'.path := by
  rcases Generation.mem_values_successor _ hu with hu | hu
  · exact ⟨u', hu, rfl⟩
  · exact List.mem_map.1 ((paths_runOnUnits pass (p.context g) g.units.values p).subset (List.mem_map_of_mem hu))

theorem Settled.runPass {p : Pipeline σ} (h : p.Settled) {pass : Pass} (hpass : pass ∈ p.options.passes.passes)
    (g : Generation) :
    (p.runPass g pass).1.Settled := Settled.runOnUnits _ _ h hpass

/-- passes run one after the other -/
def runEach (p : Pipeline σ) (g : Generation) (passes : List Pass) : Pipeline σ × Generation :=
  passes.foldl (fun (p, g) pass => p.runPass g pass) (p, g)

theorem runEach_cons (p : Pipeline σ) (g : Generation) (pass : Pass) (passes : List Pass) :
    p.runEach g (pass :: passes) = (p.runPass g pass).1.runEach (p.runPass g pass).2 passes := rfl

theorem runPasses_eq (p : Pipeline σ) (g : Generation) : p.runPasses g = p.runEach g p.options.passes.passes := rfl

theorem sameSetup_runEach (passes : List Pass) :
    ∀ (p : Pipeline σ) (g : Generation), SameSetup p (p.runEach g passes).1 := by
  induction passes with
  | nil => intro p g; exact SameSetup.refl p
  | cons pass passes ih =>
    intro p g
    rw [runEach_cons]
    exact (sameSetup_runPass p g pass).trans (ih _ _)

theorem Settled.runEach (passes : List Pass) :
    ∀ {p : Pipeline σ} (g : Generation), p.Settled → (∀ pass ∈ passes, pass ∈ p.options.passes.passes) →
    (p.runEach g passes).1.Settled := by
  induction passes with
  | nil => intro p g h _; exact h
  | cons pass passes ih =>
    intro p g h hpasses
    rw [runEach_cons]
    refine ih _ (h.runPass (hpasses pass List.mem_cons_self) g) fun other hother => ?_
    rw [(sameSetup_runPass p g pass).options]
    exact hpasses other (List.mem_cons_of_mem _ hother)

theorem keyed_runEach (passes : List Pass) :
    ∀ {p : Pipeline σ} {g : Generation}, g.Keyed → (p.runEach g passes).2.Keyed := by
  induction passes with
  | nil => intro p g hg; exact hg
  | cons pass passes ih => intro p g hg; exact ih (keyed_runPass hg pass)

theorem exists_unit_of_runEach (passes : List Pass) :
    ∀ {p : Pipeline σ} {g : Generation}, g.Keyed → ∀ {u : SourceUnit}, u ∈ g.units.values →
    ∃ u', (p.runEach g passes).2.units.get? u.path = some u' ∧ u'.path = u.path := by
  induction passes with
  | nil => intro p g hg u hu; exact ⟨u, hg.get?_path hu, rfl⟩
  | cons pass passes ih =>
    intro p g hg u hu
    obtain ⟨v, hv, hvu⟩ := exists_unit_of_runPass (p := p) hg pass hu
    obtain ⟨w, hw, hwv⟩ :=
      ih (keyed_runPass hg pass) ((keyed_runPass hg pass).mem_values hv).1 (p := (p.runPass g pass).1)
    rw [hvu] at hw
    exact ⟨w, hw, hwv.trans hvu⟩

/-- passes add no paths -/
theorem exists_mem_of_runEach (passes : List Pass) : ∀ {p : Pipeline σ} {g : Generation} {u' : SourceUnit},
    u' ∈ (p.runEach g passes).2.units.values → ∃ u ∈ g.units.values, u.path = u'.path := by
  induction passes with
  | nil => intro p g u' hu; exact ⟨u', hu, rfl⟩
  | cons pass passes ih =>
    intro p g u' hu
    obtain ⟨v, hv, hvu⟩ := ih hu
    obtain ⟨u, hu, huv⟩ := exists_mem_of_runPass hv
    exact ⟨u, hu, huv.trans hvu⟩

theorem project_runEach (passes : List Pass) :
    ∀ {p : Pipeline σ} {g : Generation}, g.Project → (p.runEach g passes).2.Project := by
  induction passes with
  | nil => intro p g hg; exact hg
  | cons pass passes ih =>
    intro p g hg
    rw [runEach_cons]
    exact ih (project_runPass hg pass)

end Pipeline

end ClosurePipeline
