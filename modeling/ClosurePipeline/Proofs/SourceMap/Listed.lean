/-
Answers of a map that was read. Its text lists segments in any order, one after the other and each by differences to
those before; the map sorts them and searches. Here is what the text lists, and the answer a scan of the list in its own
order gives.

- `Mappings.listed`: the segments a text lists, by sums of its numbers; `readLines_listed`: these are read, in this
  order. The step is one segment (`readSegment_listed`), the run goes over a line and then over the lines;
- `Mappings.nearest?`: the scan. A segment takes the place of the best one so far unless it stands behind the place
  asked for or in front of the best; `nearest?_eq_some_iff`: what is found is of greatest column, and of these the last
  one listed;
- `lookup_listed`: the result. The map that is read answers as the scan does. Sorting is stable, so the last one listed
  of a place is the last one sorted.
-/
import Mathlib.Tactic
import ClosurePipeline.Proofs.SourceMap.Fragment
import ClosurePipeline.Proofs.SourceMap.Sums

namespace ClosurePipeline.Mappings

/-! ## What a text lists -/

/-- the numbers of a segment, as far as it holds numbers -/
def numbers (seg : List Char) : List Int := (Vlq.decode seg).toOption.getD []

/-- the numbers of a text, line by line and segment by segment -/
def numbersOf (text : List Char) : List (List (List Int)) :=
  (text.splitOn ';').map fun line => (lineParts line).map numbers

/-- the sum of one field over segments; a segment without the field adds nothing -/
def fieldSum (field : Nat) (rows : List (List Int)) : Int := (rows.map fun row => row.getD field 0).sum

/-- the origin of a segment of the numbers `row`, `rows` being those of all segments up to it: none, or one with or
without a name -/
def listedOrigin (rows : List (List Int)) (row : List Int) : Option Origin :=
  if row.length < 4 then none
  else some ⟨(fieldSum 1 rows).toNat, ⟨(fieldSum 2 rows).toNat, (fieldSum 3 rows).toNat⟩,
    if row.length < 5 then none else some (fieldSum 4 rows).toNat⟩

/-- the segments of a line: generated columns are sums over this line, all else over the segments `above` it too -/
def listedLine (line : Nat) (above left : List (List Int)) : List (List Int) → List Segment
  | [] => []
  | row :: rows =>
    ⟨⟨line, (fieldSum 0 (left ++ [row])).toNat⟩, listedOrigin (above ++ (left ++ [row])) row⟩ ::
      listedLine line above (left ++ [row]) rows

/-- the segments of lines from line `line` on -/
def listedFrom (line : Nat) (above : List (List Int)) : List (List (List Int)) → List Segment
  | [] => []
  | rows :: lines => listedLine line above [] rows ++ listedFrom (line + 1) (above ++ rows) lines

/-- **The segments a text lists,** in its order. -/
def listed (text : List Char) : List Segment := listedFrom 0 [] (numbersOf text)

/-! ## What is read is what is listed -/

@[simp] theorem fieldSum_nil (field : Nat) : fieldSum field [] = 0 := rfl

theorem fieldSum_concat (field : Nat) (rows : List (List Int)) (row : List Int) :
    fieldSum field (rows ++ [row]) = fieldSum field rows + row.getD field 0 := by
  simp [fieldSum]

/-- the sums of the fields that go on from line to line -/
def sumsOf (rows : List (List Int)) : Sums := ⟨fieldSum 1 rows, fieldSum 2 rows, fieldSum 3 rows, fieldSum 4 rows⟩

theorem sumsOf_concat (rows : List (List Int)) (dg ds dl dc : Int) (dn : Option Int) :
    sumsOf (rows ++ [dg :: ds :: dl :: dc :: dn.toList]) =
      ⟨(sumsOf rows).source + ds, (sumsOf rows).line + dl, (sumsOf rows).column + dc,
        (sumsOf rows).name + dn.getD 0⟩ := by
  have hname : dn.toList.getD 0 0 = dn.getD 0 := by cases dn <;> rfl
  simp only [sumsOf, fieldSum_concat, List.getD_cons_succ, List.getD_cons_zero, hname]

theorem sumsOf_concat_singleton (rows : List (List Int)) (dg : Int) : sumsOf (rows ++ [[dg]]) = sumsOf rows := by
  simp only [sumsOf, fieldSum_concat, List.getD_cons_succ, List.getD_nil, Int.add_zero]

theorem listedOrigin_concat (rows : List (List Int)) (dg ds dl dc : Int) (dn : Option Int) :
    listedOrigin (rows ++ [dg :: ds :: dl :: dc :: dn.toList]) (dg :: ds :: dl :: dc :: dn.toList) =
      some ⟨((sumsOf rows).source + ds).toNat, ⟨((sumsOf rows).line + dl).toNat, ((sumsOf rows).column + dc).toNat⟩,
        dn.map fun d => ((sumsOf rows).name + d).toNat⟩ := by
  cases dn <;> simp [listedOrigin, sumsOf, fieldSum_concat]

theorem eq_toNat_of_toIndex {field : Field} {v : Int} {n : Nat} (h : toIndex field v = .ok n) : n = v.toNat := by
  unfold toIndex at h
  split_ifs at h
  cases h
  rfl

theorem eq_toNat_of_sourceIndex {ext : Extent} {v : Int} {n : Nat} (h : sourceIndex ext v = .ok n) : n = v.toNat := by
  obtain ⟨i, hi, h⟩ := bind_eq_ok h
  split_ifs at h
  cases h
  exact eq_toNat_of_toIndex hi

theorem eq_toNat_of_nameIndex {ext : Extent} {v : Int} {n : Nat} (h : nameIndex ext v = .ok n) : n = v.toNat := by
  obtain ⟨i, hi, h⟩ := bind_eq_ok h
  split_ifs at h
  cases h
  exact eq_toNat_of_toIndex hi

theorem readName_eq {ext : Extent} {sum : Int} {dn : Option Int} {n : Option Nat} {v : Int}
    (h : readName ext sum dn = .ok (n, v)) :
    v = sum + dn.getD 0 ∧ n = dn.map fun d => (sum + d).toNat := by
  cases dn with
  | none =>
    cases h
    exact ⟨(Int.add_zero _).symm, rfl⟩
  | some d =>
    obtain ⟨name, hname, h⟩ := bind_eq_ok h
    obtain ⟨i, hi, h⟩ := bind_eq_ok h
    cases h
    rw [eq_toNat_of_nameIndex hi, eq_add_of_addWord hname]
    exact ⟨rfl, rfl⟩

/-- an origin that is read stands at the sums behind it -/
theorem readOrigin_values {ext : Extent} {sums sums' : Sums} {ds dl dc : Int} {dn : Option Int} {o : Origin}
    (h : readOrigin ext sums ds dl dc dn = .ok (o, sums')) :
    sums' = ⟨sums.source + ds, sums.line + dl, sums.column + dc, sums.name + dn.getD 0⟩ ∧
      o = ⟨(sums.source + ds).toNat, ⟨(sums.line + dl).toNat, (sums.column + dc).toNat⟩,
        dn.map fun d => (sums.name + d).toNat⟩ := by
  have hr := readsOrigin h
  obtain ⟨hsum, hname⟩ := readName_eq hr.name
  rw [← eq_add_of_addWord hr.addSource, ← eq_add_of_addWord hr.addLine, ← eq_add_of_addWord hr.addColumn,
    ← eq_toNat_of_sourceIndex hr.source, ← eq_toNat_of_toIndex hr.line, ← eq_toNat_of_toIndex hr.column,
    ← hsum, ← hname]
  exact ⟨rfl, rfl⟩

/-- **The step:** a segment that is read is the one listed, and the reader's sums are those of the numbers so far. -/
theorem readSegment_listed {ext : Extent} {line : Nat} {r r' : Reader} {seg : List Char} {s : Segment}
    {above left : List (List Int)} (hcolumn : r.column = fieldSum 0 left) (hsums : r.sums = sumsOf (above ++ left))
    (h : readSegment ext line r seg = .ok (s, r')) :
    s = ⟨⟨line, (fieldSum 0 (left ++ [numbers seg])).toNat⟩,
      listedOrigin (above ++ (left ++ [numbers seg])) (numbers seg)⟩ ∧
      r'.column = fieldSum 0 (left ++ [numbers seg]) ∧ r'.sums = sumsOf (above ++ (left ++ [numbers seg])) := by
  obtain ⟨values, hr⟩ := exists_readsSegment h
  have hnumbers : numbers seg = values := by rw [numbers, hr.numbers]; rfl
  have hfirst : values.headD 0 = values.getD 0 0 := by cases values <;> rfl
  have hcol : r'.column = fieldSum 0 (left ++ [values]) := by
    rw [fieldSum_concat, eq_add_of_addWord hr.addColumn, hcolumn, hfirst]
  have hplace : s.generated = ⟨line, (fieldSum 0 (left ++ [values])).toNat⟩ := by
    rw [← hcol, ← eq_toNat_of_toIndex hr.column, ← hr.line]
  have hread : s.origin = listedOrigin (above ++ left ++ [values]) values ∧
      r'.sums = sumsOf (above ++ left ++ [values]) := by
    obtain ⟨hone, hnone, hbehind⟩ | ⟨dg, ds, dl, dc, dn, o, rfl, hsome, ho⟩ := readFields_cases hr.origin
    · obtain ⟨dg, rfl⟩ := List.length_eq_one_iff.1 hone
      exact ⟨hnone, by rw [sumsOf_concat_singleton, hbehind, hsums]⟩
    · obtain ⟨hbehind, rfl⟩ := readOrigin_values ho
      rw [listedOrigin_concat, sumsOf_concat, ← hsums]
      exact ⟨hsome, hbehind⟩
  rw [hnumbers, ← List.append_assoc]
  exact ⟨by rw [← hplace, ← hread.1], hcol, hread.2⟩

theorem readLine_listed {ext : Extent} {line : Nat} {above : List (List Int)} {segs : List (List Char)} :
    ∀ {r : Reader} {left : List (List Int)} {ss : List Segment} {sums : Sums}, r.column = fieldSum 0 left →
      r.sums = sumsOf (above ++ left) → readLine ext line r segs = .ok (ss, sums) →
      ss = listedLine line above left (segs.map numbers) ∧ sums = sumsOf (above ++ (left ++ segs.map numbers)) := by
  induction segs with
  | nil =>
    intro r left ss sums _ hsums h
    cases h
    exact ⟨rfl, by rw [hsums, List.map_nil, List.append_nil]⟩
  | cons seg segs ih =>
    intro r left ss sums hcolumn hsums h
    obtain ⟨⟨s, r'⟩, hs, h⟩ := bind_eq_ok h
    obtain ⟨⟨ss', sums'⟩, hss, h⟩ := bind_eq_ok h
    cases h
    obtain ⟨rfl, hcolumn', hsums'⟩ := readSegment_listed hcolumn hsums hs
    obtain ⟨rfl, rfl⟩ := ih hcolumn' hsums' hss
    exact ⟨rfl, by rw [List.map_cons, List.append_assoc left, List.singleton_append]⟩

theorem readLines_listed {ext : Extent} {texts : List (List Char)} :
    ∀ {line : Nat} {sums : Sums} {above : List (List Int)} {ss : List Segment}, sums = sumsOf above →
      readLines ext line sums texts = .ok ss →
      ss = listedFrom line above (texts.map fun text => (lineParts text).map numbers) := by
  induction texts with
  | nil =>
    intro line sums above ss _ h
    cases h
    rfl
  | cons text texts ih =>
    intro line sums above ss hsums h
    rw [readLines] at h
    split_ifs at h
    obtain ⟨⟨here, sums'⟩, hhere, h⟩ := bind_eq_ok h
    obtain ⟨later, hlater, h⟩ := bind_eq_ok h
    cases h
    obtain ⟨rfl, rfl⟩ := @readLine_listed ext line above _ _ [] _ _ rfl (by rw [hsums, List.append_nil]) hhere
    rw [ih rfl hlater]
    rfl

/-- **What is read is what is listed,** sorted. -/
theorem decode_listed {ext : Extent} {text : List Char} {ss : List Segment} (h : decode ext text = .ok ss) :
    ss = Segment.sort (listed text) := by
  unfold decode at h
  cases hread : readLines ext 0 {} (text.splitOn ';') with
  | error e =>
    rw [hread] at h
    cases h
  | ok segments =>
    rw [hread] at h
    cases h
    rw [@readLines_listed ext _ 0 {} [] _ rfl hread]
    rfl

/-! ## The scan -/

/-- a segment of the line of a place that does not start behind it -/
def Eligible (p : Position) (s : Segment) : Prop := s.generated.line = p.line ∧ s.generated.column ≤ p.column

instance (p : Position) (s : Segment) : Decidable (Eligible p s) := inferInstanceAs (Decidable (_ ∧ _))

/-- the better one of the best segment so far and the next one of the list -/
def better (p : Position) (best : Option Segment) (s : Segment) : Option Segment :=
  if Eligible p s ∧ ∀ b ∈ best, b.generated.column ≤ s.generated.column then some s else best

/-- the best segment of a list for a place: of greatest column, and of these the last -/
def nearest? (segments : List Segment) (p : Position) : Option Segment := segments.foldl (better p) none

theorem nearest?_concat (segments : List Segment) (s : Segment) (p : Position) :
    nearest? (segments ++ [s]) p = better p (nearest? segments p) s := by
  rw [nearest?, List.foldl_append]
  rfl

/-- the best of a list -/
structure Nearest (segments : List Segment) (p : Position) (s : Segment) : Prop where
  eligible : Eligible p s
  greatest : ∀ t ∈ segments, Eligible p t → t.generated.column ≤ s.generated.column
  last : (segments.filter fun t => t.generated = s.generated).getLast? = some s

theorem nearest_of_eq_none {segments : List Segment} {p : Position} :
    nearest? segments p = none → ∀ t ∈ segments, ¬ Eligible p t := by
  induction segments using List.reverseRecOn with
  | nil => simp
  | append_singleton segments s ih =>
    intro h
    rw [nearest?_concat, better] at h
    split_ifs at h with hs
    intro t ht hep
    rcases List.mem_append.1 ht with ht | ht
    · exact ih h t ht hep
    · rw [List.mem_singleton.1 ht] at hep
      exact hs ⟨hep, by simp [h]⟩

/-- **What the scan finds,** by induction on the list from its end. -/
theorem nearest_of_eq_some {segments : List Segment} {p : Position} {s : Segment} :
    nearest? segments p = some s → Nearest segments p s := by
  induction segments using List.reverseRecOn generalizing s with
  | nil => simp [nearest?]
  | append_singleton segments t ih =>
    intro h
    rw [nearest?_concat, better] at h
    split_ifs at h with ht
    · -- the last one is the best
      cases h
      refine ⟨ht.1, fun u hu hep => ?_, by simp⟩
      rcases List.mem_append.1 hu with hu | hu
      · cases hbest : nearest? segments p with
        | none => exact absurd hep (nearest_of_eq_none hbest u hu)
        | some b => exact ((ih hbest).greatest u hu hep).trans (ht.2 b hbest)
      · rw [List.mem_singleton.1 hu]
    · have hs := ih h
      have hfront : Eligible p t → t.generated.column < s.generated.column := by
        intro hep
        by_contra hge
        refine ht ⟨hep, fun b hb => ?_⟩
        rw [h] at hb
        cases hb
        omega
      refine ⟨hs.eligible, fun u hu hep => ?_, ?_⟩
      · rcases List.mem_append.1 hu with hu | hu
        · exact hs.greatest u hu hep
        · rw [List.mem_singleton.1 hu] at hep ⊢
          exact (hfront hep).le
      · have hne : t.generated ≠ s.generated := by
          intro heq
          have := hfront ⟨heq ▸ hs.eligible.1, heq ▸ hs.eligible.2⟩
          rw [heq] at this
          omega
        rw [List.filter_append, List.filter_cons_of_neg (by simpa using hne), List.filter_nil, List.append_nil]
        exact hs.last

theorem Nearest.unique {segments : List Segment} {p : Position} {s t : Segment} (hs : Nearest segments p s)
    (ht : Nearest segments p t) : s = t := by
  have mem : ∀ {u}, Nearest segments p u → u ∈ segments :=
    fun hu => (List.mem_filter.1 (List.mem_of_getLast? hu.last)).1
  have hst := hs.greatest t (mem ht) ht.eligible
  have hts := ht.greatest s (mem hs) hs.eligible
  have hplace : s.generated = t.generated :=
    Position.le_antisymm (Position.le_iff.2 (Or.inr ⟨hs.eligible.1.trans ht.eligible.1.symm, hts⟩))
      (Position.le_iff.2 (Or.inr ⟨ht.eligible.1.trans hs.eligible.1.symm, hst⟩))
  have hlast := hs.last
  rw [hplace, ht.last] at hlast
  exact (Option.some.inj hlast).symm

theorem nearest?_eq_some_iff {segments : List Segment} {p : Position} {s : Segment} :
    nearest? segments p = some s ↔ Nearest segments p s := by
  refine ⟨nearest_of_eq_some, fun hs => ?_⟩
  cases h : nearest? segments p with
  | none => exact absurd hs.eligible (nearest_of_eq_none h s (List.mem_filter.1 (List.mem_of_getLast? hs.last)).1)
  | some t => rw [hs.unique (nearest_of_eq_some h)]

theorem nearest?_eq_none_iff {segments : List Segment} {p : Position} :
    nearest? segments p = none ↔ ∀ t ∈ segments, ¬ Eligible p t := by
  refine ⟨nearest_of_eq_none, fun hnone => ?_⟩
  cases h : nearest? segments p with
  | none => rfl
  | some t =>
    have ht := nearest_of_eq_some h
    exact absurd ht.eligible (hnone t (List.mem_filter.1 (List.mem_of_getLast? ht.last)).1)

end ClosurePipeline.Mappings

namespace ClosurePipeline.SourceMap

open Mappings

/-- the covering segment stands last of those at its place -/
theorem last_of_covering? {segments : List Segment} (h : Segment.Sorted segments) {p : Position} {s : Segment}
    (hs : covering? segments p = some s) :
    (segments.filter fun t => t.generated = s.generated).getLast? = some s := by
  rw [covering?, takeWhile_eq_filter h] at hs
  obtain ⟨hlast, -⟩ := Option.filter_eq_some_iff.1 hs
  have hle := (List.mem_filter.1 (List.mem_of_getLast? hlast)).2
  -- those at its place are among those that do not stand behind `p`, and there it is the last
  have hsame : (segments.filter fun t => t.generated = s.generated) =
      (segments.filter fun t => t.generated.le p).filter fun t => t.generated = s.generated := by
    rw [List.filter_filter]
    refine List.filter_congr fun t _ => ?_
    by_cases ht : t.generated = s.generated <;> simp [ht, hle]
  obtain ⟨init, hinit⟩ := List.getLast?_eq_some_iff.1 hlast
  rw [hsame, hinit, List.filter_append, List.filter_cons_of_pos (by simp), List.filter_nil, List.getLast?_concat]

/-- **Searching the sorted segments** finds what a scan of the unsorted ones finds. -/
theorem covering?_sort (segments : List Segment) (p : Position) :
    covering? (Segment.sort segments) p = nearest? segments p := by
  have hsorted := Segment.sorted_sort segments
  cases hc : covering? (Segment.sort segments) p with
  | none =>
    refine (nearest?_eq_none_iff.2 fun t ht hep => ?_).symm
    have := behind_of_covering?_none hsorted hc t (Segment.mem_sort.2 ht) hep.1
    exact absurd hep.2 (by omega)
  | some s =>
    obtain ⟨-, hline, hle, hmax⟩ := nearest_of_covering? hsorted hc
    have hlast := last_of_covering? hsorted hc
    rw [Segment.filter_sort] at hlast
    exact (nearest?_eq_some_iff.2 ⟨⟨hline, hle⟩, fun t ht hep => hmax t (Segment.mem_sort.2 ht) hep.1 hep.2,
      hlast⟩).symm

/-- **Answers of a map that was read.** The map comes of a document with the same sources and names. All origins the
mappings list have a listed source and, if they have a name, a listed one. Whatever the place, the map answers with the
source, the place and the name of the segment that a scan of the mappings finds for it, and gives no answer exactly if
the scan finds none or one without an origin. -/
theorem lookup_listed {text : String} {m : SourceMap} (h : parse text = .ok m) :
    ∃ d, (Json.parse? text).bind Document.ofJson? = some d ∧ m.sources = d.sources ∧ m.names = d.names ∧
      (∀ s ∈ listed d.mappings.toList, ∀ o ∈ s.origin, m.IndexedOrigin o) ∧
      ∀ p, m.lookup p = ((nearest? (listed d.mappings.toList) p).bind Segment.origin).map m.locate := by
  have hindexed := (wellFormed_of_parse h).indexed
  unfold parse at h
  cases hd : (Json.parse? text).bind Document.ofJson? with
  | none =>
    rw [hd] at h
    cases h
  | some d =>
    rw [hd] at h
    simp only [ofDocument] at h
    split_ifs at h
    split at h
    · cases h
    · rename_i segments hdecode
      cases h
      obtain rfl := decode_listed hdecode
      refine ⟨d, rfl, rfl, rfl, fun s hs => hindexed s (Segment.mem_sort.2 hs), fun p => ?_⟩
      rw [lookup_eq hindexed, entryFor?_resolved, covering?_sort]
      cases nearest? (listed d.mappings.toList) p <;> rfl

/-- a document with a segment in front of the one before it, a place listed twice, the second time without an origin,
and an empty line -/
def listedBackwards : Document where
  version := 3
  sources := ["a.ts"]
  mappings := "IAAA,FACA,E;;CACE"

/-- the map it holds -/
def sortedForwards : SourceMap where
  sources := ["a.ts"]
  contents := [none]
  segments := [⟨⟨0, 2⟩, some ⟨0, ⟨1, 0⟩, none⟩⟩, ⟨⟨0, 4⟩, some ⟨0, ⟨0, 0⟩, none⟩⟩, ⟨⟨0, 4⟩, none⟩,
    ⟨⟨2, 1⟩, some ⟨0, ⟨2, 2⟩, none⟩⟩]

/-- the column between the segments is answered by the one listed second, and the place listed twice not at all -/
theorem lookup_listed_backwards :
    parse listedBackwards.toJson.compact = .ok sortedForwards ∧
      (∃ d, (Json.parse? listedBackwards.toJson.compact).bind Document.ofJson? = some d ∧
        ∀ p, sortedForwards.lookup p =
          ((nearest? (listed d.mappings.toList) p).bind Segment.origin).map sortedForwards.locate) ∧
      sortedForwards.lookup ⟨0, 3⟩ = some ⟨"a.ts", ⟨1, 0⟩, none⟩ ∧ sortedForwards.lookup ⟨0, 4⟩ = none := by
  have hlines : readLines ⟨listedBackwards.sources.length, listedBackwards.names.length⟩ 0 {}
      (listedBackwards.mappings.toList.splitOn ';') =
      .ok [⟨⟨0, 4⟩, some ⟨0, ⟨0, 0⟩, none⟩⟩, ⟨⟨0, 2⟩, some ⟨0, ⟨1, 0⟩, none⟩⟩, ⟨⟨0, 4⟩, none⟩,
        ⟨⟨2, 1⟩, some ⟨0, ⟨2, 2⟩, none⟩⟩] := by
    decide +kernel
  have hsort : Segment.sort [⟨⟨0, 4⟩, some ⟨0, ⟨0, 0⟩, none⟩⟩, ⟨⟨0, 2⟩, some ⟨0, ⟨1, 0⟩, none⟩⟩, ⟨⟨0, 4⟩, none⟩,
      ⟨⟨2, 1⟩, some ⟨0, ⟨2, 2⟩, none⟩⟩] = sortedForwards.segments := by cbv
  have hdocument : (Json.parse? listedBackwards.toJson.compact).bind Document.ofJson? = some listedBackwards := by
    rw [Json.parse?_compact (Document.written_toJson rfl), Option.bind_some, Document.ofJson?_toJson rfl]
  have hparse : parse listedBackwards.toJson.compact = .ok sortedForwards := by
    rw [parse, hdocument]
    simp only
    rw [ofDocument, if_pos (show listedBackwards.version = 3 from rfl), Mappings.decode, hlines, Except.map, hsort]
    rfl
  obtain ⟨d, hd, -, -, -, hlookup⟩ := lookup_listed hparse
  exact ⟨hparse, ⟨d, hd, hlookup⟩, by decide, by decide⟩

end ClosurePipeline.SourceMap
