/-
Composition as a pointwise fold. Folding the fragments of a ledger into a map re-lists its sources and names each time,
and the result goes through text; what it answers is still the map's own answer with its place pushed back through the
fragments of its source.

- `Ledger.pushBack`: a place pushed back through the fragments of a unit, newest pass first and each pass once;
- `resolved_foldl_foldIn`: folding in any fragments, each into its source, moves the places of entries and keeps their
  sources and names;
- `wellFormed_foldIn`: a folded map can be written and read back;
- `compose_pointwise`: the whole of it.
-/
import Mathlib.Tactic
import ClosurePipeline.Proofs.Pipeline.Ledger

namespace ClosurePipeline

open SourceMap (movedBack stepBack retraced_retrace)

/-! ## One fragment -/

/-- a place pushed back through a fragment; a place it does not locate stays -/
def Fragment.pushBack (f : Fragment) (p : Position) : Position := (f.locate? p).getD p

/-- an answer with its place moved -/
def Located.moved (found : Located) (f : Position → Position) : Located := { found with position := f found.position }

theorem movedBack_stamped (f : Fragment) (s : String) (place : Located) :
    movedBack (f.stamped s) s place = if place.source = s then place.moved f.pushBack else place := by
  unfold movedBack stepBack
  by_cases h : place.source = s
  · rw [if_pos h, if_pos h, Fragment.lookup_stamped]
    cases hl : f.locate? place.position with
    | none => simp [Located.moved, Fragment.pushBack, hl]
    | some q => simp [Located.moved, Fragment.pushBack, hl, ← h]
  · rw [if_neg h, if_neg h]

theorem stepBack_stamped_content (f : Fragment) (s : String) (place : Located) (content : Option String) :
    (stepBack (f.stamped s) s place content).2 = content := by
  have hnone : ∀ t, (f.stamped s).contentOf t = none := by
    intro t
    rw [Fragment.stamped_eq, SourceMap.contentOf]
    by_cases ht : s = t
    · simp [List.idxOf?_cons, ht]
    · simp [List.idxOf?_cons, ht]
  unfold stepBack
  split
  · rw [hnone, Option.none_or]
  · rfl

theorem Fragment.fits_pushBack {f : Fragment} (hf : f.Fits) {p : Position} (hp : Mappings.FitsPlace p) :
    Mappings.FitsPlace (f.pushBack p) := by
  unfold pushBack
  cases hl : f.locate? p with
  | none => exact hp
  | some q =>
    obtain ⟨c, -, hq⟩ := Option.bind_eq_some_iff.1 hl
    obtain ⟨pair, hfind, rfl⟩ := Option.map_eq_some_iff.1 hq
    exact (hf pair (List.mem_of_find?_eq_some hfind)).2

namespace Ledger

open SourceMap (WellFormed Indexed)

/-! ## Folding keeps a map well formed -/

theorem length_le_of_nodup_subset {xs ys : List String} (h : xs.Nodup) (hsub : xs ⊆ ys) : xs.length ≤ ys.length :=
  (h.subperm hsub).length_le

theorem source_movedBack_stamped (f : Fragment) (s : String) (place : Located) :
    (movedBack (f.stamped s) s place).source = place.source := by
  rw [movedBack_stamped]
  split_ifs <;> rfl

theorem name_movedBack_stamped (f : Fragment) (s : String) (place : Located) :
    (movedBack (f.stamped s) s place).name = place.name := by
  rw [movedBack_stamped]
  split_ifs <;> rfl

/-- a listed source stands beside the content known for it -/
theorem exists_content {m : SourceMap} (h : m.contents.length = m.sources.length) {s : String} (hs : s ∈ m.sources) :
    ∃ c, (s, c) ∈ m.sources.zip m.contents ∧ m.contentOf s = c := by
  obtain ⟨i, hi⟩ := Option.isSome_iff_exists.1 (List.isSome_idxOf?.2 hs)
  obtain ⟨hlt, he, -⟩ := List.idxOf?_eq_some_iff.1 hi
  have hlt' : i < m.contents.length := by omega
  refine ⟨m.contents[i], List.mem_iff_getElem?.2 ⟨i, List.getElem?_zip_eq_some.2 ⟨?_, ?_⟩⟩, ?_⟩
  · rw [List.getElem?_eq_getElem hlt, he]
  · exact List.getElem?_eq_getElem hlt'
  · simp [SourceMap.contentOf, hi, List.getElem?_eq_getElem hlt']

/-- a source of a folded map is that of a segment, and has the same content -/
theorem exists_origin_of_mem_sources {m : SourceMap} (f : String × Fragment) {s : String}
    (hs : s ∈ (foldIn m f).sources) :
    ∃ t ∈ m.segments, ∃ o ∈ t.origin, s = (m.locate o).source ∧
      (foldIn m f).contentOf s = (m.contents[o.source]?).join := by
  have hr := retraced_retrace m (f.2.stamped f.1) f.1
  obtain ⟨c, hzip, hc⟩ := exists_content hr.contents hs
  obtain ⟨t, ht, o, ho, hsource, hcontent⟩ := hr.listed _ hzip
  rw [source_movedBack_stamped] at hsource
  rw [stepBack_stamped_content] at hcontent
  exact ⟨t, ht, o, ho, hsource, hc.trans hcontent⟩

theorem source_locate {m : SourceMap} {o : Origin} (ho : m.IndexedOrigin o) :
    m.sources[o.source]? = some (m.locate o).source := by
  rw [SourceMap.locate, List.getD_eq_getElem?_getD, List.getElem?_eq_getElem ho.1]
  rfl

/-- the sources of a folded map are among those with a 32-bit index, so its own indices have 32 bits too -/
theorem length_sources_foldIn {m : SourceMap} (h : m.WellFormed) (f : String × Fragment) :
    (foldIn m f).sources.length ≤ Mappings.indexLimit := by
  have hsub : (foldIn m f).sources ⊆ m.sources.take Mappings.indexLimit := by
    intro s hs
    obtain ⟨t, ht, o, ho, rfl, -⟩ := exists_origin_of_mem_sources f hs
    have hget := source_locate (h.indexed t ht o ho)
    rw [← List.getElem?_take_of_lt ((h.fits t ht).origin o ho).index] at hget
    exact List.mem_of_getElem? hget
  exact (length_le_of_nodup_subset (retraced_retrace m _ _).nodupSources hsub).trans (List.length_take_le _ _)

theorem length_names_foldIn {m : SourceMap} (h : m.WellFormed) (f : String × Fragment) :
    (foldIn m f).names.length ≤ Mappings.indexLimit := by
  have hr := retraced_retrace m (f.2.stamped f.1) f.1
  have hsub : (foldIn m f).names ⊆ m.names.take Mappings.indexLimit := by
    intro n hn
    obtain ⟨t, ht, o, ho, hname⟩ := hr.named n hn
    rw [name_movedBack_stamped] at hname
    obtain ⟨i, hi, hget⟩ := Option.bind_eq_some_iff.1 hname
    rw [← List.getElem?_take_of_lt (((h.fits t ht).origin o ho).name i hi).2] at hget
    exact List.mem_of_getElem? hget
  exact (length_le_of_nodup_subset hr.nodupNames hsub).trans (List.length_take_le _ _)

/-- the place a segment of a folded map comes from is one of the map, or one of the fragment -/
theorem fits_position_foldIn {m : SourceMap} (h : m.WellFormed) {f : String × Fragment} (hf : f.2.Fits) {t : Segment}
    (ht : t ∈ (foldIn m f).segments) {o : Origin} (ho : o ∈ t.origin) : Mappings.FitsPlace o.position := by
  have hmem : (t.generated, some ((foldIn m f).locate o)) ∈ (foldIn m f).resolved :=
    List.mem_map.2 ⟨t, ht, by rw [Option.mem_def.1 ho]; rfl⟩
  rw [foldIn, SourceMap.resolved_retrace] at hmem
  obtain ⟨e, he, hpair⟩ := List.mem_map.1 hmem
  obtain ⟨t', ht', rfl⟩ := List.mem_map.1 he
  simp only [Prod.mk.injEq] at hpair
  obtain ⟨place, hplace, hmoved⟩ := Option.map_eq_some_iff.1 hpair.2
  obtain ⟨o', ho', rfl⟩ := Option.map_eq_some_iff.1 hplace
  have hfits := ((h.fits t' ht').origin o' ho').place
  have hpos : o.position = (movedBack (f.2.stamped f.1) f.1 (m.locate o')).position := by rw [hmoved]; rfl
  rw [hpos, movedBack_stamped]
  split_ifs
  · exact Fragment.fits_pushBack hf hfits
  · exact hfits

/-- **A folded map can be written and read back.** -/
theorem wellFormed_foldIn {m : SourceMap} (h : m.WellFormed) {f : String × Fragment} (hf : f.2.Fits) :
    (foldIn m f).WellFormed := by
  have hr := retraced_retrace m (f.2.stamped f.1) f.1
  refine ⟨SourceMap.sorted_retrace h.sorted _ _, fun t ht => ⟨?_, fun o ho => ?_⟩, hr.contents⟩
  · have hmem : t.generated ∈ m.segments.map (·.generated) := by
      rw [← SourceMap.generated_retrace m (f.2.stamped f.1) f.1]
      exact List.mem_map_of_mem ht
    obtain ⟨t', ht', e⟩ := List.mem_map.1 hmem
    exact e ▸ (h.fits t' ht').generated
  · obtain ⟨hsource, hname⟩ := hr.indexed t ht o ho
    refine ⟨hsource, Nat.lt_of_lt_of_le hsource (length_sources_foldIn h f), fits_position_foldIn h hf ht ho,
      fun n hn => ?_⟩
    exact ⟨hname n hn, Nat.lt_of_lt_of_le (hname n hn) (length_names_foldIn h f)⟩

/-! ## Folding many fragments -/

theorem indexed_foldIn (m : SourceMap) (f : String × Fragment) :
    (foldIn m f).Indexed := (retraced_retrace m _ _).indexed

/-- the fragments of a source, one after the other -/
def pushBackAll (fs : List (String × Fragment)) (source : String) (p : Position) : Position :=
  (fs.filter fun f => f.1 = source).foldl (fun q f => f.2.pushBack q) p

theorem indexed_foldl_foldIn (fs : List (String × Fragment)) :
    ∀ {m : SourceMap}, m.Indexed → (fs.foldl foldIn m).Indexed := by
  induction fs with
  | nil => intro m hm; exact hm
  | cons f fs ih => intro m _; exact ih (indexed_foldIn m f)

/-- folding fragments in keeps the entries of a map and moves their places -/
theorem resolved_foldl_foldIn (fs : List (String × Fragment)) : ∀ m : SourceMap,
    (fs.foldl foldIn m).resolved =
      m.resolved.map fun e => (e.1, e.2.map fun found => found.moved (pushBackAll fs found.source)) := by
  induction fs with
  | nil =>
    intro m
    simp [pushBackAll, Located.moved]
  | cons f fs ih =>
    intro m
    rw [List.foldl_cons, ih, foldIn, SourceMap.resolved_retrace, List.map_map]
    refine List.map_congr_left fun e _ => ?_
    rw [Function.comp_apply, Option.map_map]
    congr 2
    funext found
    rw [Function.comp_apply, movedBack_stamped]
    by_cases h : found.source = f.1
    · simp [h, pushBackAll, Located.moved]
    · simp [h, Ne.symm h, pushBackAll, Located.moved]

theorem wellFormed_foldl_foldIn (fs : List (String × Fragment)) :
    ∀ {m : SourceMap}, m.WellFormed → (∀ f ∈ fs, f.2.Fits) →
    (fs.foldl foldIn m).WellFormed := by
  induction fs with
  | nil => intro m h _; exact h
  | cons f fs ih =>
    intro m h hfs
    exact ih (wellFormed_foldIn h (hfs f List.mem_cons_self)) fun g hg => hfs g (List.mem_cons_of_mem _ hg)

theorem contentOf_of_getElem? {m : SourceMap} (hm : m.sources.Nodup) {i : Nat} {s : String}
    (h : m.sources[i]? = some s) :
    m.contentOf s = (m.contents[i]?).join := by
  obtain ⟨hlt, he⟩ := List.getElem?_eq_some_iff.1 h
  have hidx : m.sources.idxOf? s = some i := by
    refine List.idxOf?_eq_some_iff.2 ⟨hlt, he, fun j hj e => ?_⟩
    have := (List.Nodup.getElem_inj_iff hm).1 (e.trans he.symm)
    omega
  simp [SourceMap.contentOf, hidx]

/-- what stays beside the answers: file, root, and the content of every source still listed -/
structure SameFrame (m r : SourceMap) : Prop where
  file : r.file = m.file
  sourceRoot : r.sourceRoot = m.sourceRoot
  contents : ∀ s ∈ r.sources, s ∈ m.sources ∧ r.contentOf s = m.contentOf s

theorem sameFrame_foldIn {m : SourceMap} (h : m.Indexed) (hm : m.sources.Nodup) (f : String × Fragment) :
    SameFrame m (foldIn m f) := by
  have hr := retraced_retrace m (f.2.stamped f.1) f.1
  refine ⟨hr.file, hr.sourceRoot, fun s hs => ?_⟩
  obtain ⟨t, ht, o, ho, rfl, hc⟩ := exists_origin_of_mem_sources f hs
  have hget := source_locate (h t ht o ho)
  exact ⟨List.mem_of_getElem? hget, hc.trans (contentOf_of_getElem? hm hget).symm⟩

theorem sameFrame_foldl_foldIn (fs : List (String × Fragment)) : ∀ {m : SourceMap}, m.Indexed → m.sources.Nodup →
    SameFrame m (fs.foldl foldIn m) := by
  induction fs with
  | nil => intro m _ _; exact ⟨rfl, rfl, fun s hs => ⟨hs, rfl⟩⟩
  | cons f fs ih =>
    intro m h hm
    have h1 := sameFrame_foldIn h hm f
    have h2 := ih (indexed_foldIn m f) (retraced_retrace m (f.2.stamped f.1) f.1).nodupSources
    refine ⟨h2.file.trans h1.file, h2.sourceRoot.trans h1.sourceRoot, fun s hs => ?_⟩
    obtain ⟨hs', hc⟩ := h2.contents s hs
    exact ⟨(h1.contents s hs').1, hc.trans (h1.contents s hs').2⟩

/-! ## Composition -/

/-- a place pushed back through what a pass left for a unit, if it left a fragment -/
def pushBackPass (l : Ledger) (path : Path) (p : Position) (pass : Pass) : Position :=
  match l.fragment? path pass with
  | some f => f.pushBack p
  | none => p

/-- a place pushed back through the fragments of a unit: the newest pass first, and each pass once -/
def pushBack (l : Ledger) (path : Path) (p : Position) : Position := Pass.all.reverse.foldl (l.pushBackPass path) p

theorem foldl_reverse_get {l : Ledger} {path : Path} (h : InOrder (l.get path)) (p : Position) :
    (l.get path).reverse.foldl (fun q f => f.2.pushBack q) p = l.pushBack path p := by
  rw [get_eq_of_inOrder h, ← List.filterMap_reverse, List.foldl_filterMap, pushBack]
  congr 1
  funext q pass
  rw [pushBackPass]
  cases l.fragment? path pass <;> rfl

section

variable {σ : Type} [Host σ]

theorem pushBackAll_append (fs gs : List (String × Fragment)) (s : String) (p : Position) :
    pushBackAll (fs ++ gs) s p = pushBackAll gs s (pushBackAll fs s p) := by
  rw [pushBackAll, List.filter_append, List.foldl_append]
  rfl

/-- fragments listed for one source move the places of that source only -/
theorem pushBackAll_listed (es : List (Pass × Fragment)) (t s : String) (p : Position) :
    pushBackAll (es.map fun e => (t, e.2)) s p = if t = s then es.foldl (fun q e => e.2.pushBack q) p else p := by
  rw [pushBackAll, List.filter_map, List.foldl_map]
  split_ifs with h
  · rw [List.filter_eq_self.2 fun _ _ => by simp [h]]
  · rw [List.filter_eq_nil_iff.2 fun _ _ => by simp [h]]
    rfl

/-- a place goes back through the fragments of its source once for each time the source is listed -/
theorem pushBackAll_pending {l : Ledger} {h : σ} {output : Path} {s : String}
    (ho : InOrder (l.get (sourceKey h output s))) (sources : List String) (p : Position) :
    pushBackAll (l.pending h output sources) s p = (l.pushBack (sourceKey h output s))^[sources.count s] p := by
  induction sources generalizing p with
  | nil => rfl
  | cons t ts ih =>
    rw [pending, List.flatMap_cons, ← pending, pushBackAll_append, pushBackAll_listed, ih]
    by_cases ht : t = s
    · rw [if_pos ht, ht, foldl_reverse_get ho, List.count_cons_self, Function.iterate_succ_apply]
    · rw [if_neg ht, List.count_cons_of_ne ht]

theorem source_mem_of_resolved {m : SourceMap} (hm : m.Indexed) {e : SourceMap.Entry} (he : e ∈ m.resolved)
    {found : Located} (hfound : found ∈ e.2) : found.source ∈ m.sources := by
  obtain ⟨s, hs, rfl⟩ := List.mem_map.1 he
  obtain ⟨o, ho, rfl⟩ := Option.map_eq_some_iff.1 hfound
  exact List.mem_of_getElem? (source_locate (hm s hs o ho))

theorem pending_eq_nil_iff {l : Ledger} {h : σ} {output : Path} {sources : List String} :
    l.pending h output sources = [] ↔ ∀ s ∈ sources, l.get (sourceKey h output s) = [] := by
  simp [pending, List.flatMap_eq_nil_iff]

/-- where a ledger leads from a place of a source of the map at `output` -/
def leadBack (l : Ledger) (h : σ) (output : Path) (found : Located) : Located :=
  ⟨found.source, l.pushBack (sourceKey h output found.source) found.position, found.name⟩

/-- folding in what a ledger has for the sources of a map leads its entries back -/
theorem resolved_foldl_pending {l : Ledger} (ho : l.Ordered) (h : σ) (output : Path) {m : SourceMap} (hi : m.Indexed)
    (hm : m.sources.Nodup) :
    ((l.pending h output m.sources).foldl foldIn m).resolved =
      m.resolved.map fun e => (e.1, e.2.map (l.leadBack h output)) := by
  rw [resolved_foldl_foldIn]
  refine List.map_congr_left fun e he => ?_
  congr 1
  refine Option.map_congr fun found hfound => ?_
  rw [Located.moved, pushBackAll_pending (ho _), List.count_eq_one_of_mem hm (source_mem_of_resolved hi he hfound),
    Function.iterate_one, leadBack]

theorem lookup_foldl_pending {l : Ledger} (ho : l.Ordered) (h : σ) (output : Path) {m : SourceMap} (hi : m.Indexed)
    (hm : m.sources.Nodup) (p : Position) :
    ((l.pending h output m.sources).foldl foldIn m).lookup p = (m.lookup p).map (l.leadBack h output) :=
  SourceMap.lookup_of_resolved hi (indexed_foldl_foldIn _ hi) (resolved_foldl_pending ho h output hi hm) p

/-- a map that can be read is composed, and the text is read as the map with the pending fragments folded in -/
theorem exists_compose {l : Ledger} (h : σ) (output : Path) {base : String} {m : SourceMap}
    (hbase : SourceMap.parse base = .ok m) (hfits : ∀ s ∈ m.sources, ∀ e ∈ l.get (sourceKey h output s), e.2.Fits) :
    ∃ text, l.compose h output base = .ok text ∧
      SourceMap.parse text = .ok ((l.pending h output m.sources).foldl foldIn m) ∧
      (l.pending h output m.sources = [] → text = base) := by
  have hpending : ∀ f ∈ l.pending h output m.sources, f.2.Fits := by
    intro f hf
    obtain ⟨s, hs, hf⟩ := List.mem_flatMap.1 hf
    obtain ⟨e, he, rfl⟩ := List.mem_map.1 hf
    exact hfits s hs e (List.mem_reverse.1 he)
  unfold compose
  rw [hbase]
  simp only
  split
  · rename_i hp
    rw [hp]
    exact ⟨base, rfl, hbase, fun _ => rfl⟩
  · rename_i fs hp
    have hwf := wellFormed_foldl_foldIn _ (SourceMap.wellFormed_of_parse hbase) hpending
    exact ⟨_, rfl, SourceMap.parse_render hwf, fun hn => absurd hn hp⟩

/-- composition, with 32-bit places only in the fragments it folds in -/
theorem compose_eq_ok {l : Ledger} (ho : l.Ordered) (h : σ) (output : Path) {base : String} {m : SourceMap}
    (hbase : SourceMap.parse base = .ok m) (hm : m.sources.Nodup)
    (hfits : ∀ s ∈ m.sources, ∀ e ∈ l.get (sourceKey h output s), e.2.Fits) :
    ∃ text r, l.compose h output base = .ok text ∧ SourceMap.parse text = .ok r ∧
      (∀ p, r.lookup p = (m.lookup p).map fun found =>
        ⟨found.source, l.pushBack (sourceKey h output found.source) found.position, found.name⟩) ∧
      SameFrame m r ∧ (l.pending h output m.sources = [] → text = base) := by
  have hi := (SourceMap.wellFormed_of_parse hbase).indexed
  obtain ⟨text, hcompose, hparse, hsame⟩ := exists_compose h output hbase hfits
  exact ⟨text, _, hcompose, hparse, lookup_foldl_pending ho h output hi hm, sameFrame_foldl_foldIn _ hi hm, hsame⟩

/-- **Composition is a pointwise fold.** It succeeds on every map that can be read and has distinct sources. The
composed text is read as a map that has an answer exactly where the map has one: the map's source and name, and its
place pushed back through the fragments of that source. File, root and the contents of the sources still listed are the
map's. Where no pass left a fragment for a source, the text stays as it is. -/
theorem compose_pointwise {l : Ledger} (hl : l.Built) (h : σ) (output : Path) {base : String} {m : SourceMap}
    (hbase : SourceMap.parse base = .ok m) (hm : m.sources.Nodup) :
    ∃ text r, l.compose h output base = .ok text ∧ SourceMap.parse text = .ok r ∧
      (∀ p, r.lookup p = (m.lookup p).map fun found =>
        ⟨found.source, l.pushBack (sourceKey h output found.source) found.position, found.name⟩) ∧
      r.file = m.file ∧ r.sourceRoot = m.sourceRoot ∧ (∀ s ∈ r.sources, s ∈ m.sources ∧ r.contentOf s = m.contentOf s) ∧
      ((∀ s ∈ m.sources, ∀ pass, l.fragment? (sourceKey h output s) pass = none) → text = base) := by
  obtain ⟨text, r, hcompose, hparse, hlookup, hframe, hsame⟩ :=
    compose_eq_ok hl.ordered h output hbase hm fun s _ e he => hl.fits (sourceKey h output s) e he
  refine ⟨text, r, hcompose, hparse, hlookup, hframe.file, hframe.sourceRoot, hframe.contents, fun hnone => hsame ?_⟩
  rw [pending_eq_nil_iff]
  intro s hs
  rw [get_eq_of_inOrder (hl.ordered _), List.filterMap_eq_nil_iff]
  intro pass _
  rw [hnone s hs pass]
  rfl

end

/-- the fragment of a pass that put one line in front of two -/
def lineInFront : Fragment := ⟨[(⟨1, 0⟩, ⟨0, 0⟩), (⟨2, 0⟩, ⟨1, 0⟩)]⟩

/-- both passes put a line in front of `/p/src/a.ts` -/
def twiceInFront : Ledger :=
  (Ledger.record {} ⟨"/p/src/a.ts"⟩ .decoratorDownlevel lineInFront).record ⟨"/p/src/a.ts"⟩ .closurize lineInFront

/-- a line that comes from two sources, and one that comes from none -/
def twoSources : SourceMap where
  file := some "a.js"
  sources := ["../src/a.ts", "b.ts"]
  contents := [none, some "b"]
  names := ["x"]
  segments := [⟨⟨0, 0⟩, some ⟨0, ⟨2, 0⟩, none⟩⟩, ⟨⟨0, 4⟩, some ⟨1, ⟨2, 0⟩, some 0⟩⟩, ⟨⟨1, 0⟩, none⟩]

/-- one answer goes back through both passes, one belongs to another source, and one is missing -/
theorem compose_pointwise_twoSources :
    twiceInFront.Built ∧ SourceMap.parse twoSources.render = .ok twoSources ∧ twoSources.sources.Nodup ∧
      ∃ text r, twiceInFront.compose (⟨⟩ : BareHost) ⟨"/p/dist/a.js.map"⟩ twoSources.render = .ok text ∧
        SourceMap.parse text = .ok r ∧ r.lookup ⟨0, 2⟩ = some ⟨"../src/a.ts", ⟨0, 0⟩, none⟩ ∧
        r.lookup ⟨0, 7⟩ = some ⟨"b.ts", ⟨2, 0⟩, some "x"⟩ ∧ r.lookup ⟨1, 5⟩ = none := by
  have hf : lineInFront.Fits := by decide
  have hl : twiceInFront.Built := (Built.empty.record _ _ hf).record _ _ hf
  have hm : SourceMap.parse twoSources.render = .ok twoSources := SourceMap.parse_render (by decide)
  obtain ⟨text, r, h1, h2, h3, -⟩ := compose_pointwise hl (⟨⟩ : BareHost) ⟨"/p/dist/a.js.map"⟩ hm (by decide)
  refine ⟨hl, hm, by decide, text, r, h1, h2, ?_, ?_, ?_⟩
  · rw [h3]
    decide +kernel
  · rw [h3]
    decide +kernel
  · rw [h3]
    decide +kernel

end Ledger

end ClosurePipeline
