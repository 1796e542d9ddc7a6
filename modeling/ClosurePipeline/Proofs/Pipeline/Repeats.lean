/-
Composition of maps that list a source more than once. Fragments are folded in for each entry of the list of sources,
and each fold moves all places of that name: a place goes back through the fragments of its source as often as the
source is listed.

- `lookup_foldl_pending_count`: what the folded map answers, whatever its sources;
- `exists_merged`: every map that can be read has a merged form, with the same answers and every source listed once;
- `compose_counts_sources`: composition against composition of the merged form;
- `repeated_source_moves_twice`: the two differ for a source that is listed twice.
-/
import Mathlib.Tactic
import ClosurePipeline.Proofs.Pipeline.Compose

namespace ClosurePipeline

/-- the same answers as another map, with every source listed once -/
structure SourceMap.Merges (merged m : SourceMap) : Prop where
  nodup : merged.sources.Nodup
  lookup : ∀ p, merged.lookup p = m.lookup p

namespace Ledger

open SourceMap (retraced_retrace)

theorem pushBackAll_empty (t s : String) (p : Position) : pushBackAll [(t, Fragment.empty)] s p = p := by
  rw [pushBackAll]
  by_cases h : t = s
  · rw [List.filter_eq_self.2 fun _ _ => by simp_all]
    rfl
  · rw [List.filter_eq_nil_iff.2 fun _ _ => by simp_all]
    rfl

/-- a map that can be read can be written with each source once: folding a fragment without pairs in lists the sources
anew -/
theorem exists_merged {base : String} {m : SourceMap} (hbase : SourceMap.parse base = .ok m) :
    ∃ text merged, SourceMap.parse text = .ok merged ∧ merged.Merges m := by
  have hm := SourceMap.wellFormed_of_parse hbase
  have hfits : Fragment.empty.Fits := by decide
  have hwf : (foldIn m ("", Fragment.empty)).WellFormed := wellFormed_foldIn hm hfits
  refine ⟨_, _, SourceMap.parse_render hwf, (retraced_retrace _ _ _).nodupSources, fun p => ?_⟩
  have hresolved := resolved_foldl_foldIn [("", Fragment.empty)] m
  rw [List.foldl_cons, List.foldl_nil] at hresolved
  rw [SourceMap.lookup_of_resolved hm.indexed hwf.indexed hresolved p]
  simp only [Located.moved, pushBackAll_empty, Option.map_id']

section

variable {σ : Type} [Host σ]

/-- an answer led back once for each time its source is listed -/
def leadBackCounted (l : Ledger) (h : σ) (output : Path) (sources : List String) (found : Located) : Located :=
  found.moved (l.pushBack (sourceKey h output found.source))^[sources.count found.source]

/-- folding in what a ledger has for the sources of a map leads its answers back, once for each time their source is
listed -/
theorem lookup_foldl_pending_count {l : Ledger} (ho : l.Ordered) (h : σ) (output : Path) {m : SourceMap}
    (hi : m.Indexed) (p : Position) :
    ((l.pending h output m.sources).foldl foldIn m).lookup p =
      (m.lookup p).map (l.leadBackCounted h output m.sources) := by
  refine SourceMap.lookup_of_resolved hi (indexed_foldl_foldIn _ hi) ?_ p
  rw [resolved_foldl_foldIn]
  refine List.map_congr_left fun e _ => ?_
  congr 2
  funext found
  rw [leadBackCounted]
  congr 1
  funext q
  apply pushBackAll_pending (ho _)

/-- two answers with the places of one source moved in two ways are the same just when the places are -/
theorem map_moved_eq_iff (answer : Option Located) (f g : Located → Position → Position) :
    (answer.map fun found => found.moved (f found)) = (answer.map fun found => found.moved (g found)) ↔
      ∀ found ∈ answer, f found found.position = g found found.position := by
  cases answer with
  | none => simp
  | some found => simp [Located.moved]

/-- **Composition counts how often a source is listed.** It succeeds on every map that can be read, and the composed
text answers where the map does, with the map's source and name. The place is pushed back through the fragments of its
source once for each time the source is listed. The map has merged forms, with the same answers and each source listed
once; they compose to a push back of each place, once. So the two agree at a position just when pushing its place back
again, as often as the source is repeated, changes nothing. -/
theorem compose_counts_sources {l : Ledger} (hl : l.Built) (h : σ) (output : Path) {base : String} {m : SourceMap}
    (hbase : SourceMap.parse base = .ok m) :
    ∃ text r, l.compose h output base = .ok text ∧ SourceMap.parse text = .ok r ∧
      (∀ p, r.lookup p = (m.lookup p).map fun found =>
        ⟨found.source, (l.pushBack (sourceKey h output found.source))^[m.sources.count found.source] found.position,
          found.name⟩) ∧
      (∃ text' merged, SourceMap.parse text' = .ok merged ∧ merged.Merges m) ∧
      ∀ text' merged, SourceMap.parse text' = .ok merged → merged.Merges m →
        ∃ once r', l.compose h output text' = .ok once ∧ SourceMap.parse once = .ok r' ∧
          (∀ p, r'.lookup p = (m.lookup p).map fun found =>
            ⟨found.source, l.pushBack (sourceKey h output found.source) found.position, found.name⟩) ∧
          ∀ p, r.lookup p = r'.lookup p ↔ ∀ found ∈ m.lookup p,
            (l.pushBack (sourceKey h output found.source))^[m.sources.count found.source] found.position =
              l.pushBack (sourceKey h output found.source) found.position := by
  have hfits : ∀ s, ∀ e ∈ l.get (sourceKey h output s), e.2.Fits := fun s e he => hl.fits _ e he
  obtain ⟨text, hcompose, hparse, -⟩ := exists_compose h output hbase fun s _ => hfits s
  have hcount := lookup_foldl_pending_count hl.ordered h output (SourceMap.wellFormed_of_parse hbase).indexed
  refine ⟨text, _, hcompose, hparse, hcount, exists_merged hbase, fun text' merged hread hmerges => ?_⟩
  obtain ⟨once, r', hcompose', hparse', hlookup, -⟩ :=
    compose_eq_ok hl.ordered h output hread hmerges.nodup fun s _ => hfits s
  have honce :
      ∀ p, r'.lookup p = (m.lookup p).map fun found => found.moved (l.pushBack (sourceKey h output found.source)) := by
    intro p
    rw [hlookup, hmerges.lookup]
    rfl
  refine ⟨once, r', hcompose', hparse', honce, fun p => ?_⟩
  rw [hcount, honce]
  apply map_moved_eq_iff

end

/-- one line, from the third line of a source; the source is listed twice -/
def listedTwice : SourceMap where
  sources := ["a.ts", "a.ts"]
  contents := [none, none]
  segments := [⟨⟨0, 0⟩, some ⟨0, ⟨2, 0⟩, none⟩⟩]

/-- the same line, from a source that is listed once -/
def listedOnce : SourceMap where
  sources := ["a.ts"]
  contents := [none]
  segments := [⟨⟨0, 0⟩, some ⟨0, ⟨2, 0⟩, none⟩⟩]

/-- the first pass put a line in front of `/p/a.ts` -/
def onceInFront : Ledger := Ledger.record {} ⟨"/p/a.ts"⟩ .decoratorDownlevel lineInFront

theorem built_onceInFront : onceInFront.Built := Built.empty.record _ _ (by decide)

theorem parse_listedTwice : SourceMap.parse listedTwice.render = .ok listedTwice := SourceMap.parse_render (by decide)

theorem parse_listedOnce : SourceMap.parse listedOnce.render = .ok listedOnce := SourceMap.parse_render (by decide)

theorem lookup_listedOnce (p : Position) : listedOnce.lookup p = listedTwice.lookup p := by
  have h1 : listedOnce.Indexed := (SourceMap.wellFormed_of_parse parse_listedOnce).indexed
  have h2 : listedTwice.Indexed := (SourceMap.wellFormed_of_parse parse_listedTwice).indexed
  rw [SourceMap.lookup_eq h1, SourceMap.lookup_eq h2]
  rfl

/-- a place of the third line goes back two lines where the source is listed twice, and one line where it
is listed once -/
theorem compose_counts_sources_listedTwice :
    onceInFront.Built ∧ SourceMap.parse listedTwice.render = .ok listedTwice ∧
    SourceMap.parse listedOnce.render = .ok listedOnce ∧
      listedOnce.Merges listedTwice ∧
      ∃ text r once r', onceInFront.compose (⟨⟩ : BareHost) ⟨"/p/a.js.map"⟩ listedTwice.render = .ok text ∧
        SourceMap.parse text = .ok r ∧ onceInFront.compose (⟨⟩ : BareHost) ⟨"/p/a.js.map"⟩ listedOnce.render =
          .ok once ∧ SourceMap.parse once = .ok r' ∧
        r.lookup ⟨0, 0⟩ = some ⟨"a.ts", ⟨0, 0⟩, none⟩ ∧ r'.lookup ⟨0, 0⟩ = some ⟨"a.ts", ⟨1, 0⟩, none⟩ := by
  have hmerges : listedOnce.Merges listedTwice := ⟨by decide, lookup_listedOnce⟩
  obtain ⟨text, r, h1, h2, h3, -, hmerged⟩ :=
    compose_counts_sources built_onceInFront (⟨⟩ : BareHost) ⟨"/p/a.js.map"⟩ parse_listedTwice
  obtain ⟨once, r', h4, h5, h6, -⟩ := hmerged listedOnce.render listedOnce parse_listedOnce hmerges
  refine ⟨built_onceInFront, parse_listedTwice, parse_listedOnce, hmerges, text, r, once, r', h1, h2, h4, h5, ?_, ?_⟩
  · rw [h3]
    decide +kernel
  · rw [h6]
    decide +kernel

/-- merging the entries of a repeated source changes what composition answers -/
theorem repeated_source_moves_twice :
    ¬ ∀ (l : Ledger) (output : Path) (base text' : String) (m merged : SourceMap), l.Built →
      SourceMap.parse base = .ok m → SourceMap.parse text' = .ok merged → merged.Merges m →
      ∀ composed once r r', l.compose (⟨⟩ : BareHost) output base = .ok composed →
      SourceMap.parse composed = .ok r → l.compose (⟨⟩ : BareHost) output text' = .ok once →
      SourceMap.parse once = .ok r' → ∀ p, r.lookup p = r'.lookup p := by
  intro hall
  have hfits : ∀ s, ∀ e ∈ onceInFront.get (sourceKey (⟨⟩ : BareHost) ⟨"/p/a.js.map"⟩ s), e.2.Fits :=
    fun s e he => built_onceInFront.fits _ e he
  obtain ⟨composed, h1, h2, -⟩ := exists_compose (⟨⟩ : BareHost) ⟨"/p/a.js.map"⟩ parse_listedTwice fun s _ => hfits s
  obtain ⟨once, h3, h4, -⟩ := exists_compose (⟨⟩ : BareHost) ⟨"/p/a.js.map"⟩ parse_listedOnce fun s _ => hfits s
  have heq := hall _ _ _ _ _ _ built_onceInFront parse_listedTwice parse_listedOnce ⟨by decide, lookup_listedOnce⟩ _ _ _
    _ h1 h2 h3 h4 ⟨0, 0⟩
  rw [lookup_foldl_pending_count built_onceInFront.ordered _ _
    (SourceMap.wellFormed_of_parse parse_listedTwice).indexed, lookup_foldl_pending_count built_onceInFront.ordered _ _
      (SourceMap.wellFormed_of_parse parse_listedOnce).indexed] at heq
  revert heq
  decide +kernel

end Ledger

end ClosurePipeline
