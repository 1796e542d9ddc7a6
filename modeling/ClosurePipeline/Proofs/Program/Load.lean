/-
Loading is the closure of imports. A file of a host in memory leads to the files its imports and exports name
(`MemoryHost.LeadsTo`); loading roots gives one unit for each file they lead to, in any number of steps and around any
cycles.

The search keeps three things: host files it has not met, files that are waiting and units that are done. `Loading` is
what holds of them:
- everything met is reached from the roots;
- a host file is unmet, waiting or done;
- the files a unit leads to are met. A specifier takes its file out of the unmet ones at once, so a file is never left
  out because it is already on its way (`Discovered`, `Discovered.step`).

Results:
- `Loading.step`, `loading_loadFrom`: one file, and all of them;
- `load_eq_error_iff`, `exists_load`: which roots can be loaded, and what they give (`ClosureOf`);
- `load_closure`: the whole of it, and that the units depend only on the set of roots.
-/
import Mathlib.Logic.Relation
import Mathlib.Tactic
import ClosurePipeline.Program.Generation
import ClosurePipeline.Proofs.Host.Memory

namespace ClosurePipeline

/-! ## Files that lead to others -/

namespace MemoryHost

/-- a file leads to another one: an import or export in its text names it -/
def LeadsTo (h : MemoryHost) (p q : Path) : Prop :=
  ∃ text specifier, Host.read? h p = some text ∧ specifier ∈ (ModuleSummary.ofText text).moduleSpecifiers ∧
    Host.resolveDependency? h specifier p = some q

/-- roots lead to a file, in any number of steps -/
def Reaches (h : MemoryHost) (roots : List Path) (p : Path) : Prop :=
  ∃ root ∈ roots, Relation.ReflTransGen h.LeadsTo (Host.canonical h root) p

variable {h : MemoryHost} {roots : List Path} {p q : Path}

theorem reaches_root {root : Path} (hr : root ∈ roots) : h.Reaches roots (Host.canonical h root) := ⟨root, hr, .refl⟩

theorem Reaches.leadsTo (hp : h.Reaches roots p) (hq : h.LeadsTo p q) : h.Reaches roots q := by
  obtain ⟨root, hr, hpath⟩ := hp
  exact ⟨root, hr, hpath.tail hq⟩

/-- a set that holds the roots and is closed under leading holds everything they reach -/
theorem Reaches.closed {S : Path → Prop} (hroots : ∀ root ∈ roots, S (Host.canonical h root))
    (hclosed : ∀ p q, S p → h.LeadsTo p q → S q) (hp : h.Reaches roots p) : S p := by
  obtain ⟨root, hr, hpath⟩ := hp
  induction hpath with
  | refl => exact hroots root hr
  | tail _ hstep ih => exact hclosed _ _ ih hstep

/-- only the canonical forms of roots count -/
theorem reaches_congr {roots' : List Path}
    (hs : ∀ p, p ∈ roots.map (Host.canonical h) ↔ p ∈ roots'.map (Host.canonical h)) :
    h.Reaches roots p ↔ h.Reaches roots' p := by
  have hto : ∀ {as bs : List Path}, (∀ p ∈ as.map (Host.canonical h), p ∈ bs.map (Host.canonical h)) → h.Reaches as p →
      h.Reaches bs p := by
    rintro as bs hsub ⟨root, hr, hpath⟩
    obtain ⟨root', hr', e⟩ := List.mem_map.1 (hsub _ (List.mem_map_of_mem hr))
    exact ⟨root', hr', e ▸ hpath⟩
  exact ⟨hto fun p => (hs p).1, hto fun p => (hs p).2⟩

theorem exists_read?_of_fileExists (he : Host.fileExists h p = true) : ∃ text, Host.read? h p = some text := by
  obtain ⟨e, hentry⟩ := Option.isSome_iff_exists.1 (show (h.table.entry? p.normalize).isSome = true from he)
  exact ⟨e.2, by rw [read?_eq, PathTable.get?, hentry, Option.map_some]⟩

end MemoryHost

namespace Generation

variable {h : MemoryHost} {roots : List Path}

/-! ## The specifiers of a file -/

theorem listed_iff {paths : List Path} {p : Path} : listed paths p = true ↔ ∃ q ∈ paths, p.Same q := by
  simp [listed]

theorem listed_without_iff {paths : List Path} {p q : Path} :
    listed (without paths p) q = true ↔ listed paths q = true ∧ ¬ p.Same q := by
  simp only [listed_iff, without, List.mem_filter, Bool.not_eq_true', decide_eq_false_iff_not]
  constructor
  · rintro ⟨k, ⟨hk, hpk⟩, hqk⟩
    exact ⟨⟨k, hk, hqk⟩, fun hpq => hpk (hpq.trans hqk)⟩
  · rintro ⟨⟨k, hk, hqk⟩, hpq⟩
    exact ⟨k, ⟨hk, fun hpk => hpq (hpk.trans hqk.symm)⟩, hqk⟩

/-- a specifier changes nothing, or it takes the unmet file it names and finds it -/
theorem follow_cases (h : MemoryHost) (file : Path) (fr : Frontier) (specifier : String) :
    (fr.follow h file specifier = fr ∧ ∀ dep, Host.resolveDependency? h specifier file = some dep →
      listed fr.unmet dep = false) ∨
    ∃ dep text, Host.resolveDependency? h specifier file = some dep ∧ Host.read? h dep = some text ∧
      fr.follow h file specifier = ⟨without fr.unmet dep, fr.found ++ [(dep, text)]⟩ := by
  unfold Frontier.follow
  cases hdep : Host.resolveDependency? h specifier file with
  | none => exact Or.inl ⟨rfl, by simp⟩
  | some dep =>
    obtain ⟨text, htext⟩ := MemoryHost.exists_read?_of_fileExists (MemoryHost.resolveDependency?_normal hdep).2
    cases hlisted : listed fr.unmet dep with
    | false =>
      refine Or.inl ⟨by simp [hlisted], fun d hd => ?_⟩
      rw [← Option.some.inj hd]
      exact hlisted
    | true => exact Or.inr ⟨dep, text, rfl, htext, by simp [hlisted, htext]⟩

/-- what is unmet and found after some specifiers of a file -/
structure Discovered (h : MemoryHost) (file : Path) (unmet : List Path) (done : List String) (fr : Frontier) :
    Prop where
  found : ∀ w ∈ fr.found, Host.read? h w.1 = some w.2 ∧ ∃ s ∈ done, Host.resolveDependency? h s file = some w.1
  /-- a file that was unmet still is, or has been found -/
  kept : ∀ p : Path, p.normalize = p → listed unmet p = true → listed fr.unmet p = true ∨ p ∈ fr.found.map Prod.fst
  /-- a file that a specifier names is met -/
  met : ∀ s ∈ done, ∀ dep, Host.resolveDependency? h s file = some dep → listed fr.unmet dep = false

theorem Discovered.step {file : Path} {unmet : List Path} {done : List String} {fr : Frontier}
    (hd : Discovered h file unmet done fr) (s : String) :
    Discovered h file unmet (done ++ [s]) (fr.follow h file s) := by
  have old : ∀ {P : String → Prop}, (∃ t ∈ done, P t) → ∃ t ∈ done ++ [s], P t := by
    rintro P ⟨t, ht, hp⟩
    exact ⟨t, List.mem_append_left _ ht, hp⟩
  rcases follow_cases h file fr s with ⟨e, hnone⟩ | ⟨dep, text, hdep, htext, e⟩ <;> rw [e]
  · refine ⟨fun w hw => ⟨(hd.found w hw).1, old (hd.found w hw).2⟩, hd.kept, fun t ht dep hdep => ?_⟩
    rcases List.mem_append.1 ht with ht | ht
    · exact hd.met t ht dep hdep
    · exact hnone dep (List.mem_singleton.1 ht ▸ hdep)
  · have hnormal := (MemoryHost.resolveDependency?_normal hdep).1
    refine ⟨fun w hw => ?_, fun p hp hlisted => ?_, fun t ht d hd' => ?_⟩
    · rcases List.mem_append.1 hw with hw | hw
      · exact ⟨(hd.found w hw).1, old (hd.found w hw).2⟩
      · rw [List.mem_singleton.1 hw]
        exact ⟨htext, s, List.mem_append_right _ (List.mem_singleton_self s), hdep⟩
    · rw [List.map_append, List.mem_append]
      rcases hd.kept p hp hlisted with hunmet | hfound
      · by_cases hsame : dep.Same p
        · rw [← Path.eq_of_same_of_normal hnormal hp hsame]
          exact Or.inr (Or.inr (List.mem_singleton_self _))
        · exact Or.inl (listed_without_iff.2 ⟨hunmet, hsame⟩)
      · exact Or.inr (Or.inl hfound)
    · rw [← Bool.not_eq_true, listed_without_iff]
      rintro ⟨hlisted, hne⟩
      rcases List.mem_append.1 ht with ht | ht
      · rw [hd.met t ht d hd'] at hlisted
        cases hlisted
      · rw [List.mem_singleton.1 ht, hdep] at hd'
        exact hne (Option.some.inj hd' ▸ Path.Same.refl _)

theorem discovered_foldl {file : Path} {unmet : List Path} (specifiers : List String) :
    ∀ {done : List String} {fr : Frontier},
    Discovered h file unmet done fr →
    Discovered h file unmet (done ++ specifiers) (specifiers.foldl (Frontier.follow h file) fr) := by
  induction specifiers with
  | nil => intro done fr hd; rwa [List.append_nil]
  | cons s specifiers ih =>
    intro done fr hd
    rw [List.append_cons]
    exact ih (hd.step s)

theorem discovered_discover (h : MemoryHost) (file : Path) (unmet : List Path) (specifiers : List String) :
    Discovered h file unmet specifiers (discover h file unmet specifiers) := by
  have hstart : Discovered h file unmet [] ⟨unmet, []⟩ := ⟨by simp, fun _ _ hp => Or.inl hp, by simp⟩
  exact discovered_foldl specifiers hstart

/-! ## The search -/

/-- a file that is waiting or done -/
def Met (waiting : List (Path × String)) (units : PathTable SourceUnit) (p : Path) : Prop :=
  p ∈ waiting.map Prod.fst ∨ p ∈ units.keys

/-- what holds of the unmet files, the waiting ones and the units done -/
structure Loading (h : MemoryHost) (roots unmet : List Path) (waiting : List (Path × String))
    (units : PathTable SourceUnit) : Prop where
  sorted : units.Sorted
  read : ∀ w ∈ waiting, Host.read? h w.1 = some w.2
  done : ∀ e ∈ units.entries, ∃ text, Host.read? h e.1 = some text ∧ e.2 = .parse e.1 text
  normal : ∀ p, Met waiting units p → p.normalize = p
  reached : ∀ p, Met waiting units p → h.Reaches roots p
  present : ∀ p : Path, p.normalize = p → Host.fileExists h p = true → listed unmet p = true ∨ Met waiting units p
  closed : ∀ p ∈ units.keys, ∀ q, h.LeadsTo p q → Met waiting units q
  rooted : ∀ root ∈ roots, Met waiting units (Host.canonical h root)

theorem Loading.step {unmet : List Path} {path : Path} {text : String} {waiting : List (Path × String)}
    {units : PathTable SourceUnit} (hl : Loading h roots unmet ((path, text) :: waiting) units) :
    Loading h roots (discover h path unmet (SourceUnit.parse path text).summary.moduleSpecifiers).unmet
      (waiting ++ (discover h path unmet (SourceUnit.parse path text).summary.moduleSpecifiers).found)
      (units.insert path (.parse path text)) := by
  have hd := discovered_discover h path unmet (SourceUnit.parse path text).summary.moduleSpecifiers
  generalize discover h path unmet (SourceUnit.parse path text).summary.moduleSpecifiers = fr at hd
  have hread : Host.read? h path = some text := hl.read (path, text) List.mem_cons_self
  have hpath : Met ((path, text) :: waiting) units path := Or.inl List.mem_cons_self
  -- keys are normal paths, so the same path is spelled the same way
  have hspelled : ∀ e ∈ units.entries, path.Same e.1 → e.1 = path := fun e he hsame =>
    (Path.eq_of_same_of_normal (hl.normal _ hpath) (hl.normal _ (Or.inr (List.mem_map_of_mem he))) hsame).symm
  have hkeys : ∀ p, p ∈ (units.insert path (.parse path text)).keys ↔ p = path ∨ p ∈ units.keys :=
    fun p => hl.sorted.mem_keys_insert_iff hspelled _
  -- what was met still is, and what is met now was met or has just been found
  have hmet : ∀ p, Met (waiting ++ fr.found) (units.insert path (.parse path text)) p ↔
      Met ((path, text) :: waiting) units p ∨ p ∈ fr.found.map Prod.fst := by
    intro p
    simp only [Met, hkeys, List.map_append, List.map_cons, List.mem_append, List.mem_cons]
    tauto
  have hfound : ∀ w ∈ fr.found, h.LeadsTo path w.1 := by
    intro w hw
    obtain ⟨-, s, hs, hdep⟩ := hd.found w hw
    exact ⟨text, s, hread, hs, hdep⟩
  have hunmet : ∀ p : Path, p.normalize = p → Host.fileExists h p = true →
      listed fr.unmet p = true ∨ Met (waiting ++ fr.found) (units.insert path (.parse path text)) p := by
    intro p hp he
    rw [hmet]
    rcases hl.present p hp he with hlisted | hm
    · exact (hd.kept p hp hlisted).imp_right Or.inr
    · exact Or.inr (Or.inl hm)
  refine ⟨hl.sorted.insert _ _, fun w hw => ?_, fun e he => ?_, fun p hp => ?_, fun p hp => ?_, hunmet,
    fun p hp q hq => ?_, fun root hr => ?_⟩
  · rcases List.mem_append.1 hw with hw | hw
    · exact hl.read w (List.mem_cons_of_mem _ hw)
    · exact (hd.found w hw).1
  · rcases (hl.sorted.mem_insert_iff hspelled _).1 he with rfl | ⟨he, -⟩
    · exact ⟨text, hread, rfl⟩
    · exact hl.done e he
  · rcases (hmet p).1 hp with hp | hp
    · exact hl.normal p hp
    · obtain ⟨w, hw, rfl⟩ := List.mem_map.1 hp
      obtain ⟨-, s, -, hdep⟩ := hd.found w hw
      exact (MemoryHost.resolveDependency?_normal hdep).1
  · rcases (hmet p).1 hp with hp | hp
    · exact hl.reached p hp
    · obtain ⟨w, hw, rfl⟩ := List.mem_map.1 hp
      exact (hl.reached path hpath).leadsTo (hfound w hw)
  · rcases (hkeys p).1 hp with rfl | hp
    · -- the files the new unit leads to are no longer unmet
      obtain ⟨text', s, hread', hs, hdep⟩ := hq
      cases hread.symm.trans hread'
      obtain ⟨hnormal, hexists⟩ := MemoryHost.resolveDependency?_normal hdep
      refine (hunmet q hnormal hexists).resolve_left ?_
      rw [hd.met s hs q hdep]
      exact Bool.false_ne_true
    · exact (hmet q).2 (Or.inl (hl.closed p hp q hq))
  · exact (hmet _).2 (Or.inl (hl.rooted root hr))

/-- **Nothing is waiting at the end.** -/
theorem loading_loadFrom {unmet : List Path} {waiting : List (Path × String)} {units : PathTable SourceUnit}
    (hl : Loading h roots unmet waiting units) :
    ∃ unmet', Loading h roots unmet' [] (loadFrom h unmet waiting units) := by
  induction unmet, waiting, units using loadFrom.induct h with
  | case1 unmet units =>
    rw [loadFrom]
    exact ⟨unmet, hl⟩
  | case2 unmet units path text waiting unit ih =>
    rw [loadFrom]
    exact ih hl.step

/-! ## Roots -/

/-- a root that cannot be read -/
def unreadable (h : MemoryHost) (root : Path) : Bool := (Host.read? h root).isNone

/-- the roots read, or the first one that cannot be -/
theorem readRoots_cases (h : MemoryHost) (roots : List Path) :
    (∃ root, roots.find? (unreadable h) = some root ∧ readRoots h roots = .error (.fileNotFound root)) ∨
    (roots.find? (unreadable h) = none ∧ ∃ waiting, readRoots h roots = .ok (roots.map (Host.canonical h), waiting) ∧
      (∀ w ∈ waiting, Host.read? h w.1 = some w.2) ∧ ∀ p, p ∈ waiting.map Prod.fst ↔
        p ∈ roots.map (Host.canonical h)) := by
  induction roots with
  | nil => exact Or.inr ⟨rfl, [], rfl, by simp, by simp⟩
  | cons root roots ih =>
    rw [List.find?_cons, unreadable]
    unfold readRoots
    rw [MemoryHost.read?_canonical]
    cases hread : Host.read? h root with
    | none => exact Or.inl ⟨root, rfl, rfl⟩
    | some text =>
      rcases ih with ⟨bad, hbad, he⟩ | ⟨hnone, waiting, he, hwaiting, hpaths⟩
      · exact Or.inl ⟨bad, hbad, by rw [he]; rfl⟩
      · refine Or.inr ⟨hnone, _, by rw [he]; rfl, fun w hw => ?_, fun p => ?_⟩
        · rcases List.mem_cons.1 hw with rfl | hw
          · rw [← hread]
            exact MemoryHost.read?_canonical h root
          · exact hwaiting w (List.mem_filter.1 hw).1
        · simp only [List.map_cons, List.mem_cons, List.mem_map, List.mem_filter]
          constructor
          · rintro (rfl | ⟨w, ⟨hw, -⟩, rfl⟩)
            · exact Or.inl rfl
            · exact Or.inr (List.mem_map.1 ((hpaths w.1).1 (List.mem_map_of_mem hw)))
          · rintro (rfl | hp)
            · exact Or.inl rfl
            · obtain ⟨w, hw, rfl⟩ := List.mem_map.1 ((hpaths p).2 (List.mem_map.2 hp))
              by_cases hsame : (Host.canonical h root).Same w.1
              · -- the file is waiting already, as the first root
                obtain ⟨r, -, hr⟩ := hp
                refine Or.inl (Path.eq_of_same_of_normal ?_ ?_ hsame).symm
                · exact Path.normalize_normalize root
                · rw [← hr]
                  exact Path.normalize_normalize r
              · exact Or.inr ⟨w, ⟨hw, by simpa using hsame⟩, rfl⟩

/-- at the start the roots are waiting and every other file is unmet -/
theorem loading_start {waiting : List (Path × String)} (hwaiting : ∀ w ∈ waiting, Host.read? h w.1 = some w.2)
    (hpaths : ∀ p, p ∈ waiting.map Prod.fst ↔ p ∈ roots.map (Host.canonical h)) :
    Loading h roots ((Host.files h).filter fun p => !listed (roots.map (Host.canonical h)) p) waiting {} := by
  have hmet : ∀ p, Met waiting {} p ↔ ∃ root ∈ roots, Host.canonical h root = p := by
    intro p
    rw [Met, hpaths, List.mem_map]
    simp [PathTable.keys]
  refine ⟨List.Pairwise.nil, hwaiting, by simp, fun p hp => ?_, fun p hp => ?_,
    fun p hp he => ?_, by simp [PathTable.keys], fun root hr => ?_⟩
  · obtain ⟨root, -, rfl⟩ := (hmet p).1 hp
    exact Path.normalize_normalize root
  · obtain ⟨root, hr, rfl⟩ := (hmet p).1 hp
    exact MemoryHost.reaches_root hr
  · obtain ⟨k, hk, hsame⟩ := MemoryHost.fileExists_iff.1 he
    rw [hp] at hsame
    by_cases hroot : listed (roots.map (Host.canonical h)) k = true
    · obtain ⟨q, hq, hkq⟩ := listed_iff.1 hroot
      obtain ⟨root, hr, rfl⟩ := List.mem_map.1 hq
      refine Or.inr ((hmet p).2 ⟨root, hr, ?_⟩)
      exact (Path.eq_of_same_of_normal hp (Path.normalize_normalize root) (hsame.trans hkq)).symm
    · exact Or.inl (listed_iff.2 ⟨k, List.mem_filter.2 ⟨hk, by simpa using hroot⟩, hsame⟩)
  · exact (hmet _).2 ⟨root, hr, rfl⟩

/-! ## Loading -/

/-- the generation of exactly the files that roots lead to -/
structure ClosureOf (h : MemoryHost) (roots : List Path) (g : Generation) : Prop where
  number : g.number = 0
  canonicalRoots : g.roots = roots.map (Host.canonical h)
  /-- each path occurs once, in path order -/
  sorted : g.units.Sorted
  normal : ∀ p ∈ g.units.keys, p.normalize = p
  /-- the units are the parsed texts of the files reached -/
  units : ∀ p u, (p, u) ∈ g.units.entries ↔ h.Reaches roots p ∧ ∃ text, Host.read? h p = some text ∧ u = .parse p text

theorem Loading.mem_entries_iff {unmet : List Path} {units : PathTable SourceUnit} (hl : Loading h roots unmet [] units)
    (p : Path) (u : SourceUnit) :
    (p, u) ∈ units.entries ↔ h.Reaches roots p ∧ ∃ text, Host.read? h p = some text ∧ u = .parse p text := by
  have hmet : ∀ {q}, Met [] units q → q ∈ units.keys := fun hq => hq.resolve_left List.not_mem_nil
  constructor
  · intro he
    exact ⟨hl.reached p (Or.inr (List.mem_map_of_mem he)), hl.done (p, u) he⟩
  · rintro ⟨hreach, text, hread, rfl⟩
    have hkey : p ∈ units.keys :=
      hreach.closed (fun root hr => hmet (hl.rooted root hr)) fun _ q hp hq => hmet (hl.closed _ hp q hq)
    obtain ⟨e, he, rfl⟩ := List.mem_map.1 hkey
    obtain ⟨text', hread', hunit⟩ := hl.done e he
    cases hread.symm.trans hread'
    rw [← hunit]
    exact he

theorem load_eq_error_iff (h : MemoryHost) (roots : List Path) (e : Error) :
    load h roots = .error e ↔ ∃ root, roots.find? (unreadable h) = some root ∧ e = .fileNotFound root := by
  unfold load
  rcases readRoots_cases h roots with ⟨root, hroot, hread⟩ | ⟨hnone, waiting, hread, -⟩ <;> rw [hread]
  · constructor
    · intro he
      cases he
      exact ⟨root, hroot, rfl⟩
    · rintro ⟨root', hroot', rfl⟩
      cases hroot.symm.trans hroot'
      rfl
  · constructor
    · intro he
      cases he
    · rintro ⟨root, hroot, -⟩
      cases hnone.symm.trans hroot

/-- **Readable roots load as the files they lead to.** -/
theorem exists_load (hroots : ∀ root ∈ roots, ∃ text, Host.read? h root = some text) :
    ∃ g, load h roots = .ok g ∧ ClosureOf h roots g := by
  rcases readRoots_cases h roots with ⟨root, hroot, -⟩ | ⟨-, waiting, hread, hwaiting, hpaths⟩
  · obtain ⟨text, htext⟩ := hroots root (List.mem_of_find?_eq_some hroot)
    have hbad := List.find?_some hroot
    rw [unreadable, htext] at hbad
    cases hbad
  · obtain ⟨unmet, hl⟩ := loading_loadFrom (loading_start hwaiting hpaths)
    refine ⟨⟨_, _, _⟩, ?_, rfl, rfl, hl.sorted, fun p hp => hl.normal p (Or.inr hp), hl.mem_entries_iff⟩
    unfold load
    rw [hread]
    rfl

theorem ClosureOf.units_eq {roots' : List Path} {g g' : Generation} (hg : ClosureOf h roots g)
    (hg' : ClosureOf h roots' g') (hs : ∀ p, p ∈ roots.map (Host.canonical h) ↔ p ∈ roots'.map (Host.canonical h)) :
    g'.units = g.units := by
  refine hg'.sorted.ext hg.sorted fun ⟨p, u⟩ => ?_
  rw [hg'.units, hg.units, MemoryHost.reaches_congr hs]

/-- roots that have been loaded can be read -/
theorem exists_read?_of_load {g : Generation} (hload : load h roots = .ok g) :
    ∀ root ∈ roots, ∃ text, Host.read? h root = some text := by
  intro root hr
  cases hread : Host.read? h root with
  | some text => exact ⟨text, rfl⟩
  | none =>
    have hbad : (roots.find? (unreadable h)).isSome = true :=
      List.find?_isSome.2 ⟨root, hr, by rw [unreadable, hread]; rfl⟩
    obtain ⟨bad, hfind⟩ := Option.isSome_iff_exists.1 hbad
    have herror := (load_eq_error_iff h roots _).2 ⟨bad, hfind, rfl⟩
    cases hload.symm.trans herror

/-- **Loading computes the closure of imports.** Over every host in memory and for every list of roots: loading fails
exactly if some root cannot be read, and names the first one. Otherwise it gives the canonical roots in order and, each
path once, the parsed texts of the files that can be read and that the roots lead to. Roots with the same canonical
forms, in any order and any number of times, give the same units. -/
theorem load_closure (h : MemoryHost) (roots : List Path) :
    (∀ e, load h roots = .error e ↔ ∃ root, roots.find? (unreadable h) = some root ∧ e = .fileNotFound root) ∧
    ((∀ root ∈ roots, ∃ text, Host.read? h root = some text) → ∃ g, load h roots = .ok g ∧ ClosureOf h roots g) ∧
    ∀ roots' g, (∀ p, p ∈ roots.map (Host.canonical h) ↔ p ∈ roots'.map (Host.canonical h)) → load h roots = .ok g →
      ∃ g', load h roots' = .ok g' ∧ g'.units = g.units := by
  refine ⟨load_eq_error_iff h roots, exists_load, fun roots' g hs hload => ?_⟩
  have hread := exists_read?_of_load hload
  have hread' : ∀ root ∈ roots', ∃ text, Host.read? h root = some text := by
    intro root hr
    obtain ⟨root', hr', e⟩ := List.mem_map.1 ((hs _).2 (List.mem_map_of_mem hr))
    rw [← MemoryHost.read?_canonical, ← e, MemoryHost.read?_canonical]
    exact hread root' hr'
  obtain ⟨g₁, hload₁, hg⟩ := exists_load hread
  cases hload.symm.trans hload₁
  obtain ⟨g', hload', hg'⟩ := exists_load hread'
  exact ⟨g', hload', hg.units_eq hg' hs⟩

/-- `a.ts` and `b.ts` import each other, and `b.ts` passes on the index of a directory -/
def cyclicImports : MemoryHost :=
  .ofFiles [(⟨"/p/a.ts"⟩, "import { B } from './b';\nexport class A {}\n"),
    (⟨"/p/b.ts"⟩, "import './a';\nexport * from './d';\n"), (⟨"/p/d/index.ts"⟩, "export class B {}\n"),
    (⟨"/p/unused.ts"⟩, "import './a';\n")]

/-- a root given twice, spelled differently, leads around the cycle to the index -/
theorem load_closure_cyclicImports : ∃ g, load cyclicImports [⟨"/p/./a.ts"⟩, ⟨"/p/a.ts"⟩] = .ok g ∧
    ClosureOf cyclicImports [⟨"/p/./a.ts"⟩, ⟨"/p/a.ts"⟩] g ∧ ⟨"/p/d/index.ts"⟩ ∈ g.units.keys ∧
    ∃ g', load cyclicImports [⟨"/p/a.ts"⟩] = .ok g' ∧ g'.units = g.units := by
  obtain ⟨-, hloads, hset⟩ := load_closure cyclicImports [⟨"/p/./a.ts"⟩, ⟨"/p/a.ts"⟩]
  have hread : ∀ root ∈ ([⟨"/p/./a.ts"⟩, ⟨"/p/a.ts"⟩] : List Path), (Host.read? cyclicImports root).isSome = true := by
    decide +kernel
  have hcanonical : Host.canonical cyclicImports ⟨"/p/./a.ts"⟩ = ⟨"/p/a.ts"⟩ := by decide +kernel
  have hcanonical' : Host.canonical cyclicImports ⟨"/p/a.ts"⟩ = ⟨"/p/a.ts"⟩ := by decide +kernel
  obtain ⟨g, hload, hg⟩ := hloads fun root hr => Option.isSome_iff_exists.1 (hread root hr)
  have hb : cyclicImports.LeadsTo ⟨"/p/a.ts"⟩ ⟨"/p/b.ts"⟩ :=
    ⟨"import { B } from './b';\nexport class A {}\n", "./b", by decide +kernel, by decide +kernel, by decide +kernel⟩
  have hd : cyclicImports.LeadsTo ⟨"/p/b.ts"⟩ ⟨"/p/d/index.ts"⟩ :=
    ⟨"import './a';\nexport * from './d';\n", "./d", by decide +kernel, by decide +kernel, by decide +kernel⟩
  have hreach : cyclicImports.Reaches [⟨"/p/./a.ts"⟩, ⟨"/p/a.ts"⟩] ⟨"/p/d/index.ts"⟩ := by
    have hroot := MemoryHost.reaches_root (h := cyclicImports)
      (List.mem_cons_self : ⟨"/p/./a.ts"⟩ ∈ ([⟨"/p/./a.ts"⟩, ⟨"/p/a.ts"⟩] : List Path))
    rw [hcanonical] at hroot
    exact (hroot.leadsTo hb).leadsTo hd
  have hindex : Host.read? cyclicImports ⟨"/p/d/index.ts"⟩ = some "export class B {}\n" := by decide +kernel
  refine ⟨g, hload, hg, List.mem_map_of_mem ((hg.units _ _).2 ⟨hreach, _, hindex, rfl⟩), hset _ g (fun p => ?_) hload⟩
  simp [hcanonical, hcanonical']

end Generation

end ClosurePipeline
