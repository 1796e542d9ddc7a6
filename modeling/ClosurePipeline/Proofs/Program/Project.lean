/-
Generations and their units. The units of a generation are found under their paths; those of a project have normal
absolute paths without backslashes.

- `Generation.Keyed`: every unit is under its path, under some spelling. Given units, loading and passes make nothing
  else (`keyed_ofUnits`, `keyed_load`, `Keyed.successor`);
- `Generation.Project`: the units of a project;
- `project_ofUnits`: units with such paths make a project;
- `Project.successor`: units that replace others keep it; `get?_successor_of_mem`, `get?_successor_of_not_same`: which
  unit a path then has.
-/
import Mathlib.Tactic
import ClosurePipeline.Program.Generation
import ClosurePipeline.Proofs.Path.Table
import ClosurePipeline.Proofs.Path.Normal

namespace ClosurePipeline

/-- a path as the units of a project have it -/
structure Path.Proper (p : Path) : Prop where
  normal : p.normalize = p
  absolute : p.isAbsolute = true
  slashed : '\\' ∉ p.text.toList

instance (p : Path) : Decidable p.Proper :=
  decidable_of_iff (p.normalize = p ∧ p.isAbsolute = true ∧ '\\' ∉ p.text.toList)
    ⟨fun ⟨h1, h2, h3⟩ => ⟨h1, h2, h3⟩, fun h => ⟨h.normal, h.absolute, h.slashed⟩⟩

theorem Path.Proper.eq_of_same {p q : Path} (hp : p.Proper) (hq : q.Proper) (h : p.Same q) : p = q :=
  eq_of_same_of_normal hp.normal hq.normal h

namespace Generation

/-- units under their own paths, however these are spelled, in path order -/
structure Keyed (g : Generation) : Prop where
  sorted : g.units.Sorted
  keyed : ∀ e ∈ g.units.entries, e.1.Same e.2.path

namespace Keyed

variable {g : Generation}

theorem get?_path (hg : g.Keyed) {u : SourceUnit} (hu : u ∈ g.units.values) : g.units.get? u.path = some u := by
  obtain ⟨e, he, rfl⟩ := List.mem_map.1 hu
  exact hg.sorted.get?_eq_some_iff.2 ⟨e.1, he, (hg.keyed e he).symm⟩

theorem mem_values (hg : g.Keyed) {path : Path} {u : SourceUnit} (h : g.units.get? path = some u) :
    u ∈ g.units.values ∧ path.Same u.path := by
  obtain ⟨k, hk, hsame⟩ := hg.sorted.get?_eq_some_iff.1 h
  exact ⟨List.mem_map_of_mem hk, hsame.trans (hg.keyed (k, u) hk)⟩

theorem find?_values (hg : g.Keyed) (path : Path) :
    g.units.values.find? (fun u => decide (path.Same u.path)) = g.units.get? path := by
  rw [PathTable.values, List.find?_map, PathTable.get?_eq]
  congr 1
  refine List.find?_congr fun e he => ?_
  exact decide_eq_decide.2 ⟨fun hs => hs.trans (hg.keyed e he).symm, fun hs => hs.trans (hg.keyed e he)⟩

/-- no two units share a path -/
theorem pairwise_values (hg : g.Keyed) : g.units.values.Pairwise fun u v => ¬ u.path.Same v.path := by
  refine List.pairwise_map.2 (hg.sorted.imp_of_mem fun {a b} ha hb hlt hsame => ?_)
  exact Path.not_same_of_compare_lt hlt ((hg.keyed a ha).trans (hsame.trans (hg.keyed b hb).symm))

theorem insert (hg : g.Keyed) (u : SourceUnit) : Keyed { g with units := g.units.insert u.path u } := by
  refine ⟨hg.sorted.insert _ _, fun e he => ?_⟩
  rcases PathTable.mem_insertWith he with rfl | he | ⟨d, -, hsame, rfl⟩
  · exact Path.Same.refl _
  · exact hg.keyed e he
  · exact hsame.symm

theorem foldl_insert (rs : List SourceUnit) :
    ∀ {g : Generation}, g.Keyed → Keyed { g with units := rs.foldl (fun t u => t.insert u.path u) g.units } := by
  induction rs with
  | nil => intro g hg; exact hg
  | cons r rs ih => intro g hg; exact ih (hg.insert r)

theorem successor (hg : g.Keyed) (rs : List SourceUnit) :
    (g.successor rs).Keyed := ⟨(foldl_insert rs hg).sorted, (foldl_insert rs hg).keyed⟩

end Keyed

theorem keyed_ofUnits (units : List SourceUnit) : (ofUnits units).Keyed := by
  obtain ⟨hsorted, hmem⟩ := PathTable.ofList_spec (units.map fun u => (u.path, u))
  refine ⟨hsorted, fun e he => ?_⟩
  obtain ⟨u, -, rfl⟩ := List.mem_map.1 (hmem e he)
  exact Path.Same.refl _

theorem keyed_loadFrom {σ : Type} [Host σ] (h : σ) (unmet : List Path) (waiting : List (Path × String))
    (units : PathTable SourceUnit) (hk : Keyed { units := units }) :
    Keyed { units := loadFrom h unmet waiting units } := by
  induction unmet, waiting, units using loadFrom.induct h with
  | case1 unmet units =>
    rw [loadFrom]
    exact hk
  | case2 unmet units path text waiting unit ih =>
    rw [loadFrom]
    apply ih
    exact hk.insert unit

/-- **Loading puts each file under its path,** from any host -/
theorem keyed_load {σ : Type} [Host σ] {h : σ} {roots : List Path} {g : Generation} (hg : load h roots = .ok g) :
    g.Keyed := by
  unfold load at hg
  cases hr : readRoots h roots with
  | error e =>
    rw [hr] at hg
    cases hg
  | ok read =>
    rw [hr] at hg
    cases hg
    have hk := keyed_loadFrom h ((Host.files h).filter fun p => !listed read.1 p) read.2 {} ⟨List.Pairwise.nil, by simp⟩
    exact ⟨hk.sorted, hk.keyed⟩

/-- units under their own paths, in path order; the paths are proper -/
structure Project (g : Generation) : Prop where
  sorted : g.units.Sorted
  keyed : ∀ e ∈ g.units.entries, e.1 = e.2.path
  proper : ∀ e ∈ g.units.entries, e.1.Proper

namespace Project

variable {g : Generation}

theorem proper_of_mem (hg : g.Project) {u : SourceUnit} (hu : u ∈ g.units.values) : u.path.Proper := by
  obtain ⟨e, he, rfl⟩ := List.mem_map.1 hu
  rw [← hg.keyed e he]
  exact hg.proper e he

theorem toKeyed (hg : g.Project) : g.Keyed := ⟨hg.sorted, fun e he => by rw [hg.keyed e he]; exact Path.Same.refl _⟩

theorem get?_path (hg : g.Project) {u : SourceUnit} (hu : u ∈ g.units.values) :
    g.units.get? u.path = some u := hg.toKeyed.get?_path hu

theorem mem_values (hg : g.Project) {path : Path} {u : SourceUnit} (h : g.units.get? path = some u) :
    u ∈ g.units.values ∧ path.Same u.path :=
  hg.toKeyed.mem_values h

theorem pairwise_values (hg : g.Project) :
    g.units.values.Pairwise fun u v => ¬ u.path.Same v.path := hg.toKeyed.pairwise_values

/-- a unit with a proper path can be put in -/
theorem insert (hg : g.Project) {u : SourceUnit} (hu : u.path.Proper) :
    Project { g with units := g.units.insert u.path u } := by
  have hcases : ∀ e ∈ (g.units.insert u.path u).entries, e.1 = e.2.path ∧ e.1.Proper := by
    intro e he
    rcases PathTable.mem_insertWith he with rfl | he | ⟨d, hd, hsame, rfl⟩
    · exact ⟨rfl, hu⟩
    · exact ⟨hg.keyed e he, hg.proper e he⟩
    · exact ⟨((hg.proper d hd).eq_of_same hu hsame.symm), hg.proper d hd⟩
  exact ⟨hg.sorted.insert _ _, fun e he => (hcases e he).1, fun e he => (hcases e he).2⟩

theorem foldl_insert (rs : List SourceUnit) : ∀ {g : Generation}, g.Project → (∀ r ∈ rs, r.path.Proper) →
    Project { g with units := rs.foldl (fun t u => t.insert u.path u) g.units } := by
  induction rs with
  | nil => intro g hg _; exact hg
  | cons r rs ih =>
    intro g hg hr
    exact ih (hg.insert (hr r List.mem_cons_self)) fun x hx => hr x (List.mem_cons_of_mem _ hx)

/-- **The next generation of a project is a project.** -/
theorem successor (hg : g.Project) {rs : List SourceUnit} (hr : ∀ r ∈ rs, r.path.Proper) :
    (g.successor rs).Project := by
  have h := foldl_insert rs hg hr
  exact ⟨h.sorted, h.keyed, h.proper⟩

end Project

theorem get?_foldl_insert_of_not_same (rs : List SourceUnit) {path : Path} (h : ∀ r ∈ rs, ¬ path.Same r.path) :
    ∀ t : PathTable SourceUnit,
    (rs.foldl (fun t u => t.insert u.path u) t).get? path = t.get? path := by
  induction rs with
  | nil => intro t; rfl
  | cons r rs ih =>
    intro t
    rw [List.foldl_cons, ih fun x hx => h x (List.mem_cons_of_mem _ hx), PathTable.get?_insert,
      if_neg (h r List.mem_cons_self)]

theorem get?_successor_of_not_same {g : Generation} {rs : List SourceUnit} {path : Path}
    (h : ∀ r ∈ rs, ¬ path.Same r.path) :
    (g.successor rs).units.get? path = g.units.get? path := get?_foldl_insert_of_not_same rs h g.units

/-- the units of the next generation are old ones and new ones -/
theorem mem_values_successor (rs : List SourceUnit) :
    ∀ {g : Generation} {u : SourceUnit}, u ∈ (g.successor rs).units.values →
    u ∈ g.units.values ∨ u ∈ rs := by
  induction rs with
  | nil => intro g u hu; exact Or.inl hu
  | cons r rs ih =>
    intro g u hu
    rcases ih (g := { g with units := g.units.insert r.path r }) hu with hu | hu
    · exact (PathTable.mem_values_insert hu).elim (fun hr => Or.inr (hr ▸ List.mem_cons_self)) Or.inl
    · exact Or.inr (List.mem_cons_of_mem _ hu)

/-- a replaced path has the unit that replaces it -/
theorem get?_successor_of_mem {g : Generation} {rs : List SourceUnit}
    (hrs : rs.Pairwise fun u v => ¬ u.path.Same v.path) {r : SourceUnit} (hr : r ∈ rs) :
    (g.successor rs).units.get? r.path = some r := by
  obtain ⟨before, after, rfl⟩ := List.append_of_mem hr
  have hafter : ∀ x ∈ after, ¬ r.path.Same x.path := (List.pairwise_cons.1 (List.pairwise_append.1 hrs).2.1).1
  change (List.foldl _ g.units (before ++ r :: after)).get? r.path = some r
  rw [List.foldl_append, List.foldl_cons, get?_foldl_insert_of_not_same after hafter, PathTable.get?_insert,
    if_pos (Path.Same.refl _)]

/-- **Units with proper paths make a project.** -/
theorem project_ofUnits {units : List SourceUnit} (h : ∀ u ∈ units, u.path.Proper) : (ofUnits units).Project := by
  obtain ⟨hsorted, hmem⟩ := PathTable.ofList_spec (units.map fun u => (u.path, u))
  have hunit : ∀ e ∈ (ofUnits units).units.entries, e.1 = e.2.path ∧ e.1.Proper := by
    intro e he
    obtain ⟨u, hu, rfl⟩ := List.mem_map.1 (hmem e he)
    exact ⟨rfl, h u hu⟩
  exact ⟨hsorted, fun e he => (hunit e he).1, fun e he => (hunit e he).2⟩

end Generation

end ClosurePipeline
