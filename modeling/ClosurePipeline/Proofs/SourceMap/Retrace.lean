/-
Following a map one step back, place by place. A map answers from its segments with their indices looked up
(`resolved`); retracing keeps every generated place and moves every origin by `movedBack`, whatever happens to the
indices (`resolved_retrace`).

Results:
- `lookup_eq`: an answer is the origin of the entry that covers the place;
- `lookup_retrace`: a retraced map answers with the place moved back, and has no answer exactly where the map has none;
- `retrace_composes`: read as relations, a map and the one it is retraced through are composed;
- `Retraced`: what holds after any number of segments; `retraced_foldl` is the run, `Retraced.step` the step. The lists
  of sources and names only grow and never repeat, so an index once given keeps its meaning.
-/
import Mathlib.Tactic
import ClosurePipeline.SourceMap.Retrace
import ClosurePipeline.Proofs.SourceMap.Document

namespace ClosurePipeline.SourceMap

/-! ## Answers without indices -/

/-- a generated place, and where it comes from -/
abbrev Entry : Type := Position × Option Located

/-- the segments with their indices looked up -/
def resolved (m : SourceMap) : List Entry := m.segments.map fun s => (s.generated, s.origin.map m.locate)

/-- the entry that covers a place -/
def entryFor? (entries : List Entry) (p : Position) : Option Entry :=
  (entries.takeWhile fun e => e.1.le p).getLast?.filter fun e => e.1.line == p.line

/-- an origin whose indices stand for listed sources and names -/
def IndexedOrigin (m : SourceMap) (o : Origin) : Prop := o.source < m.sources.length ∧ ∀ n ∈ o.name, n < m.names.length

/-- a map whose indices stand for listed sources and names -/
def Indexed (m : SourceMap) : Prop := ∀ s ∈ m.segments, ∀ o ∈ s.origin, m.IndexedOrigin o

theorem WellFormed.indexed {m : SourceMap} (h : m.WellFormed) : m.Indexed := by
  intro s hs o ho
  have hfits := (h.fits s hs).origin o ho
  exact ⟨hfits.source, fun n hn => (hfits.name n hn).1⟩

theorem entryFor?_resolved (m : SourceMap) (p : Position) :
    entryFor? m.resolved p = (covering? m.segments p).map fun s => (s.generated, s.origin.map m.locate) := by
  simp only [entryFor?, resolved, covering?, List.takeWhile_map, List.getLast?_map, Option.filter_map]
  rfl

theorem mem_of_covering? {segments : List Segment} {p : Position} {s : Segment} (h : covering? segments p = some s) :
    s ∈ segments := by
  have hlast := (Option.filter_eq_some_iff.1 h).1
  exact (List.takeWhile_sublist _).subset (List.mem_of_getLast? hlast)

/-- an answer is the origin of the entry that covers the place -/
theorem lookup_eq {m : SourceMap} (h : m.Indexed) (p : Position) :
    m.lookup p = (entryFor? m.resolved p).bind Prod.snd := by
  rw [entryFor?_resolved, lookup]
  cases hc : covering? m.segments p with
  | none => rfl
  | some s =>
    cases ho : s.origin with
    | none => simp [ho]
    | some o =>
      have hlt := (h s (mem_of_covering? hc) o ho).1
      simp [ho, locate, List.getD_eq_getElem?_getD, List.getElem?_eq_getElem hlt]

/-! ## One step back -/

/-- where a place of `source` comes from by way of `inner`; other places stay -/
def movedBack (inner : SourceMap) (source : String) (place : Located) : Located := (stepBack inner source place none).1

theorem stepBack_fst (inner : SourceMap) (source : String) (place : Located) (content : Option String) :
    (stepBack inner source place content).1 = movedBack inner source place := by
  unfold movedBack stepBack
  split <;> rfl

/-! ## Lists that only grow -/

theorem intern_cases (table : List String) (s : String) :
    (s ∈ table ∧ (intern table s).1 = table ∨ s ∉ table ∧ (intern table s).1 = table ++ [s]) ∧
    (intern table s).1[(intern table s).2]? = some s := by
  unfold intern
  cases h : table.idxOf? s with
  | none =>
    rw [List.idxOf?_eq_none_iff] at h
    exact ⟨Or.inr ⟨h, rfl⟩, by simp⟩
  | some i =>
    obtain ⟨hi, he, -⟩ := List.idxOf?_eq_some_iff.1 h
    exact ⟨Or.inl ⟨he ▸ List.getElem_mem hi, rfl⟩, by rw [List.getElem?_eq_getElem hi, he]⟩

theorem isPrefix_intern (table : List String) (s : String) : table <+: (intern table s).1 := by
  rcases (intern_cases table s).1 with ⟨-, h⟩ | ⟨-, h⟩ <;> rw [h]
  exact List.prefix_append _ _

theorem nodup_intern {table : List String} (hn : table.Nodup) (s : String) : (intern table s).1.Nodup := by
  rcases (intern_cases table s).1 with ⟨-, h⟩ | ⟨hs, h⟩ <;> rw [h]
  · exact hn
  · exact List.nodup_append.2 ⟨hn, List.nodup_singleton s,
      by rintro a ha b hb rfl; exact hs (List.mem_singleton.1 hb ▸ ha)⟩

theorem intern_lt (table : List String) (s : String) : (intern table s).2 < (intern table s).1.length :=
  (List.getElem?_eq_some_iff.1 (intern_cases table s).2).1

/-- the lists of one map go on those of another -/
def Extends (m m' : SourceMap) : Prop := m.sources <+: m'.sources ∧ m.names <+: m'.names

theorem getElem?_of_isPrefix {α : Type} {xs ys : List α} (h : xs <+: ys) {i : Nat} (hi : i < xs.length) :
    ys[i]? = xs[i]? := by
  obtain ⟨t, rfl⟩ := h
  exact List.getElem?_append_left hi

theorem Extends.indexed {m m' : SourceMap} (h : m.Extends m') {o : Origin} (ho : m.IndexedOrigin o) :
    m'.IndexedOrigin o :=
  ⟨Nat.lt_of_lt_of_le ho.1 h.1.length_le, fun n hn => Nat.lt_of_lt_of_le (ho.2 n hn) h.2.length_le⟩

theorem Extends.locate_eq {m m' : SourceMap} (h : m.Extends m') {o : Origin} (ho : m.IndexedOrigin o) :
    m'.locate o = m.locate o := by
  obtain ⟨src, place, name⟩ := o
  have hsource : m'.sources.getD src "" = m.sources.getD src "" := by
    rw [List.getD_eq_getElem?_getD, List.getD_eq_getElem?_getD, getElem?_of_isPrefix h.1 ho.1]
  have hname : name.bind (m'.names[·]?) = name.bind (m.names[·]?) := by
    cases name with
    | none => rfl
    | some n => exact getElem?_of_isPrefix h.2 (ho.2 n rfl)
  simp only [locate, hsource, hname]

theorem extends_addLocated (out : SourceMap) (generated : Position) (place : Located) (content : Option String) :
    out.Extends (addLocated out generated place content) := by
  refine ⟨isPrefix_intern _ _, ?_⟩
  unfold addLocated
  cases place.name with
  | none => exact List.prefix_refl _
  | some n => exact isPrefix_intern _ _

/-- the segment that is added stands for the place, and its indices are listed -/
theorem exists_segments_addLocated (out : SourceMap) (generated : Position) (place : Located)
    (content : Option String) :
    ∃ o, (addLocated out generated place content).segments = out.segments ++ [⟨generated, some o⟩] ∧
      (addLocated out generated place content).IndexedOrigin o ∧
      (addLocated out generated place content).locate o = place := by
  obtain ⟨source, position, name⟩ := place
  have hsource := (intern_cases out.sources source).2
  cases name with
  | none =>
    refine ⟨⟨(intern out.sources source).2, position, none⟩, rfl, ⟨intern_lt _ _, by simp⟩, ?_⟩
    simp [addLocated, locate, List.getD_eq_getElem?_getD, hsource]
  | some n =>
    refine ⟨⟨(intern out.sources source).2, position, some (intern out.names n).2⟩, rfl, ⟨intern_lt _ _, ?_⟩, ?_⟩
    · intro k hk
      cases hk
      exact intern_lt _ _
    · simp [addLocated, locate, List.getD_eq_getElem?_getD, hsource, (intern_cases out.names n).2]

theorem resolved_of_extends {m m' : SourceMap} (h : m.Extends m') (hm : m.Indexed) {added : List Segment}
    (hs : m'.segments = m.segments ++ added) :
    m'.resolved = m.resolved ++ added.map fun s => (s.generated, s.origin.map m'.locate) := by
  rw [resolved, hs, List.map_append, resolved]
  congr 1
  refine List.map_congr_left fun s hseg => ?_
  cases ho : s.origin with
  | none => rfl
  | some o => rw [Option.map_some, Option.map_some, h.locate_eq (hm s hseg o ho)]

theorem indexed_of_extends {m m' : SourceMap} (h : m.Extends m') (hm : m.Indexed) {added : List Segment}
    (hs : m'.segments = m.segments ++ added) (ha : ∀ s ∈ added, ∀ o ∈ s.origin, m'.IndexedOrigin o) : m'.Indexed := by
  intro s hseg o ho
  rw [hs] at hseg
  rcases List.mem_append.1 hseg with hseg | hseg
  · exact h.indexed (hm s hseg o ho)
  · exact ha s hseg o ho

/-! ## All segments -/

/-- what `retrace` has after the segments `done` -/
structure Retraced (outer inner : SourceMap) (source : String) (done : List Segment) (out : SourceMap) : Prop where
  resolved : out.resolved =
      done.map fun s => (s.generated, s.origin.map fun o => movedBack inner source (outer.locate o))
  indexed : out.Indexed
  nodupSources : out.sources.Nodup
  nodupNames : out.names.Nodup
  contents : out.contents.length = out.sources.length
  /-- a source and its content come from a segment -/
  listed : ∀ e ∈ out.sources.zip out.contents, ∃ s ∈ done, ∃ o ∈ s.origin,
    e.1 = (movedBack inner source (outer.locate o)).source ∧
    e.2 = (stepBack inner source (outer.locate o) (outer.contents[o.source]?).join).2
  /-- a name comes from a segment -/
  named : ∀ n ∈ out.names, ∃ s ∈ done, ∃ o ∈ s.origin, (movedBack inner source (outer.locate o)).name = some n
  file : out.file = outer.file
  sourceRoot : out.sourceRoot = outer.sourceRoot

theorem retraced_start (outer inner : SourceMap) (source : String) :
    Retraced outer inner source [] { file := outer.file, sourceRoot := outer.sourceRoot } := by
  constructor <;> simp [SourceMap.resolved, Indexed]

/-- the sources with their contents grow by the place's, if its source is new -/
theorem zip_addLocated {out : SourceMap} (h : out.contents.length = out.sources.length) (generated : Position)
    (place : Located) (content : Option String) :
    (addLocated out generated place content).contents.length = (addLocated out generated place content).sources.length ∧
      ∀ e ∈ (addLocated out generated place content).sources.zip (addLocated out generated place content).contents,
        e ∈ out.sources.zip out.contents ∨ e = (place.source, content) := by
  simp only [addLocated]
  rcases (intern_cases out.sources place.source).1 with ⟨-, hs⟩ | ⟨-, hs⟩
  · rw [hs, if_neg (by omega)]
    exact ⟨h, fun e he => Or.inl he⟩
  · rw [hs, if_pos (by simp; omega), List.zip_append h.symm]
    refine ⟨by simp [h], fun e he => ?_⟩
    rcases List.mem_append.1 he with he | he
    · exact Or.inl he
    · exact Or.inr (List.mem_singleton.1 he)

theorem names_addLocated {out : SourceMap} (h : out.names.Nodup) (generated : Position) (place : Located)
    (content : Option String) :
    (addLocated out generated place content).names.Nodup ∧
      ∀ n ∈ (addLocated out generated place content).names, n ∈ out.names ∨ place.name = some n := by
  obtain ⟨source, position, name⟩ := place
  cases name with
  | none => exact ⟨h, fun n hn => Or.inl hn⟩
  | some k =>
    refine ⟨nodup_intern h k, fun n hn => ?_⟩
    have hn' : n ∈ (intern out.names k).1 := hn
    rcases (intern_cases out.names k).1 with ⟨-, e⟩ | ⟨-, e⟩ <;> rw [e] at hn'
    · exact Or.inl hn'
    · rcases List.mem_append.1 hn' with hn' | hn'
      · exact Or.inl hn'
      · exact Or.inr (by rw [List.mem_singleton.1 hn'])

theorem Retraced.step {outer inner out : SourceMap} {source : String} {done : List Segment}
    (h : Retraced outer inner source done out) (s : Segment) :
    Retraced outer inner source (done ++ [s]) (retraceSegment outer inner source out s) := by
  have old : ∀ {P : Segment → Prop}, (∃ t ∈ done, P t) → ∃ t ∈ done ++ [s], P t := by
    rintro P ⟨t, ht, hp⟩
    exact ⟨t, List.mem_append_left _ ht, hp⟩
  unfold retraceSegment
  cases ho : s.origin with
  | none =>
    have hext : out.Extends { out with segments := out.segments ++ [s] } := ⟨List.prefix_refl _, List.prefix_refl _⟩
    have hadded : ∀ t ∈ [s], ∀ o ∈ t.origin, IndexedOrigin { out with segments := out.segments ++ [s] } o := by
      intro t ht o hto
      rw [List.mem_singleton.1 ht, ho] at hto
      cases hto
    refine ⟨?_, indexed_of_extends hext h.indexed rfl hadded, h.nodupSources, h.nodupNames, h.contents, ?_, ?_, h.file,
      h.sourceRoot⟩
    · rw [resolved_of_extends hext h.indexed rfl, h.resolved, List.map_append]
      simp [ho]
    · exact fun e he => old (h.listed e he)
    · exact fun n hn => old (h.named n hn)
  | some o =>
    obtain ⟨place, hplace⟩ : ∃ p, p = movedBack inner source (outer.locate o) := ⟨_, rfl⟩
    obtain ⟨content, hcontent⟩ :
        ∃ c, c = (stepBack inner source (outer.locate o) (outer.contents[o.source]?).join).2 := ⟨_, rfl⟩
    have hstep : stepBack inner source (outer.locate o) (outer.contents[o.source]?).join = (place, content) := by
      rw [hplace, hcontent, ← stepBack_fst]
    simp only [hstep]
    have hext := extends_addLocated out s.generated place content
    obtain ⟨o', hsegs, hidx, hloc⟩ := exists_segments_addLocated out s.generated place content
    obtain ⟨hlen, hzip⟩ := zip_addLocated h.contents s.generated place content
    obtain ⟨hnodup, hnames⟩ := names_addLocated h.nodupNames s.generated place content
    have hmem : s ∈ done ++ [s] := List.mem_append_right _ (List.mem_singleton_self s)
    refine ⟨?_, ?_, nodup_intern h.nodupSources _, hnodup, hlen, ?_, ?_, h.file, h.sourceRoot⟩
    · rw [resolved_of_extends hext h.indexed hsegs, h.resolved, List.map_append]
      simp [ho, hloc, ← hplace]
    · refine indexed_of_extends hext h.indexed hsegs fun t ht x hx => ?_
      rw [List.mem_singleton.1 ht] at hx
      cases hx
      exact hidx
    · intro e he
      rcases hzip e he with he | rfl
      · exact old (h.listed e he)
      · exact ⟨s, hmem, o, ho, by rw [hplace], hcontent⟩
    · intro n hn
      rcases hnames n hn with hn | hn
      · exact old (h.named n hn)
      · exact ⟨s, hmem, o, ho, by rw [← hplace]; exact hn⟩

theorem retraced_foldl {outer inner : SourceMap} {source : String} (segments : List Segment) :
    ∀ {done : List Segment} {out : SourceMap}, Retraced outer inner source done out →
      Retraced outer inner source (done ++ segments) (segments.foldl (retraceSegment outer inner source) out) := by
  induction segments with
  | nil => intro done out h; rwa [List.append_nil]
  | cons s segments ih =>
    intro done out h
    rw [List.append_cons]
    exact ih (h.step s)

theorem retraced_retrace (outer inner : SourceMap) (source : String) :
    Retraced outer inner source outer.segments (outer.retrace inner source) :=
  retraced_foldl outer.segments (retraced_start outer inner source)

theorem resolved_retrace (outer inner : SourceMap) (source : String) :
    (outer.retrace inner source).resolved = outer.resolved.map fun e => (e.1, e.2.map (movedBack inner source)) := by
  rw [(retraced_retrace outer inner source).resolved, resolved, List.map_map]
  refine List.map_congr_left fun s _ => ?_
  rw [Function.comp_apply, Option.map_map]
  rfl

theorem generated_retrace (outer inner : SourceMap) (source : String) :
    (outer.retrace inner source).segments.map (·.generated) = outer.segments.map (·.generated) := by
  have h := congrArg (List.map Prod.fst) (resolved_retrace outer inner source)
  simpa [resolved, List.map_map, Function.comp_def] using h

/-- retracing keeps segments sorted -/
theorem sorted_retrace {outer : SourceMap} (h : Segment.Sorted outer.segments) (inner : SourceMap) (source : String) :
    Segment.Sorted (outer.retrace inner source).segments := by
  have sorted_iff : ∀ segments, Segment.Sorted segments ↔
      (segments.map (·.generated)).Pairwise fun a b => a.le b = true := by
    intro segments
    rw [List.pairwise_map]
    rfl
  rw [sorted_iff, generated_retrace]
  exact (sorted_iff _).1 h

/-- a map whose entries are those of another one, with their origins moved, answers as the other one does, with the
place moved -/
theorem lookup_of_resolved {m r : SourceMap} (hm : m.Indexed) (hr : r.Indexed) {move : Located → Located}
    (h : r.resolved = m.resolved.map fun e => (e.1, e.2.map move)) (p : Position) :
    r.lookup p = (m.lookup p).map move := by
  rw [lookup_eq hr, lookup_eq hm, h]
  simp only [entryFor?, List.takeWhile_map, List.getLast?_map, Option.filter_map, Function.comp_def]
  generalize (Option.filter _ _ : Option Entry) = e
  cases e <;> rfl

/-- **A retraced map answers with the place moved back**, and has no answer exactly where the map has none. -/
theorem lookup_retrace {outer : SourceMap} (h : outer.Indexed) (inner : SourceMap) (source : String) (p : Position) :
    (outer.retrace inner source).lookup p = (outer.lookup p).map (movedBack inner source) :=
  lookup_of_resolved h (retraced_retrace outer inner source).indexed (resolved_retrace outer inner source) p

/-! ## Relational composition -/

theorem movedBack_of_lookup {inner : SourceMap} {place : Position} {found : Located}
    (h : inner.lookup place = some found) (source : String) (name : Option String) :
    movedBack inner source ⟨source, place, name⟩ = { found with name := found.name.or name } := by
  simp only [movedBack, stepBack, if_true, h]

theorem movedBack_of_not_lookup {inner : SourceMap} {source : String} {place : Located}
    (h : place.source = source → inner.lookup place.position = none) : movedBack inner source place = place := by
  unfold movedBack stepBack
  split_ifs with hs
  · rw [h hs]
  · rfl

/-- **Retracing composes two maps as relations.** Where the outer map locates a place in `source`, and the inner map
locates that one, the retraced map answers with the inner map's source and place, and with its name or else the outer
map's. Everywhere else it answers as the outer map does. Indices of sources and names are stored as 32-bit words; they
are numbers here, which is the same for tables that such words can count (`Mappings.indexLimit`). -/
theorem retrace_composes {outer : SourceMap} (h : outer.Indexed) (inner : SourceMap) (source : String) (p : Position) :
    (∀ place name source' place' name', outer.lookup p = some ⟨source, place, name⟩ →
      inner.lookup place = some ⟨source', place', name'⟩ →
      (outer.retrace inner source).lookup p = some ⟨source', place', name'.or name⟩) ∧
    ((∀ place name, outer.lookup p = some ⟨source, place, name⟩ → inner.lookup place = none) →
      (outer.retrace inner source).lookup p = outer.lookup p) := by
  rw [lookup_retrace h]
  constructor
  · intro place name source' place' name' houter hinner
    rw [houter, Option.map_some, movedBack_of_lookup hinner]
  · intro hmiss
    cases hp : outer.lookup p with
    | none => rfl
    | some found =>
      obtain ⟨s, place, name⟩ := found
      rw [Option.map_some, movedBack_of_not_lookup]
      rintro rfl
      exact hmiss place name hp

/-- a map that lists one source twice, and has a segment from another source and one from none -/
def sourceTwice : SourceMap where
  sources := ["mid.js", "other.ts", "mid.js"]
  contents := [none, none, none]
  names := ["n"]
  segments := [⟨⟨0, 0⟩, some ⟨0, ⟨0, 3⟩, some 0⟩⟩, ⟨⟨0, 4⟩, some ⟨2, ⟨1, 0⟩, none⟩⟩, ⟨⟨0, 8⟩, some ⟨1, ⟨0, 3⟩, none⟩⟩,
    ⟨⟨1, 0⟩, none⟩]

/-- a map of the first line of `mid.js` -/
def firstLineOnly : SourceMap where
  sources := ["src.ts"]
  contents := [some "let a;"]
  segments := [⟨⟨0, 2⟩, some ⟨0, ⟨7, 1⟩, none⟩⟩]

/-- one answer goes through both maps, one stays because the inner map does not reach it, one belongs to another source,
and one is missing -/
theorem retrace_composes_sourceTwice :
    sourceTwice.Indexed ∧ (sourceTwice.retrace firstLineOnly "mid.js").lookup ⟨0, 1⟩ =
      some ⟨"src.ts", ⟨7, 1⟩, some "n"⟩ ∧ (sourceTwice.retrace firstLineOnly "mid.js").lookup ⟨0, 5⟩ =
        some ⟨"mid.js", ⟨1, 0⟩, none⟩ ∧
      (sourceTwice.retrace firstLineOnly "mid.js").lookup ⟨0, 9⟩ = some ⟨"other.ts", ⟨0, 3⟩, none⟩ ∧
      (sourceTwice.retrace firstLineOnly "mid.js").lookup ⟨1, 2⟩ = none := by
  have h : sourceTwice.Indexed := WellFormed.indexed (by decide)
  have hmiss : ∀ p : Position,
      (∀ place name, sourceTwice.lookup p = some ⟨"mid.js", place, name⟩ → firstLineOnly.lookup place = none) →
      (sourceTwice.retrace firstLineOnly "mid.js").lookup p = sourceTwice.lookup p :=
    fun p => (retrace_composes h firstLineOnly "mid.js" p).2
  refine ⟨h, (retrace_composes h firstLineOnly "mid.js" ⟨0, 1⟩).1 ⟨0, 3⟩ (some "n") "src.ts" ⟨7, 1⟩ none (by decide)
    (by decide), ?_, ?_, ?_⟩
  · rw [hmiss]
    · decide
    · intro place name hp
      have hat : sourceTwice.lookup ⟨0, 5⟩ = some ⟨"mid.js", ⟨1, 0⟩, none⟩ := by decide
      cases hat.symm.trans hp
      decide
  · rw [hmiss]
    · decide
    · intro place name hp
      have hat : sourceTwice.lookup ⟨0, 9⟩ = some ⟨"other.ts", ⟨0, 3⟩, none⟩ := by decide
      exact absurd (hat.symm.trans hp) (by simp)
  · rw [hmiss]
    · decide
    · intro place name hp
      have hat : sourceTwice.lookup ⟨1, 2⟩ = none := by decide
      exact absurd (hat.symm.trans hp) (by simp)

end ClosurePipeline.SourceMap
