/-
Source maps read back from their text.

- `WellFormed`: segments sorted, numbers of 32 bits, indices inside the lists, and one content for each source;
- `wellFormed_of_ofDocument`, `wellFormed_of_parse`: a map that was read is well formed;
- `ofDocument_toDocument`, `parse_render`: a well-formed map is read back from its document and from its text;
- `read_write_read`: reading, writing and reading again is reading once, whatever document the first one was.
-/
import Mathlib.Tactic
import ClosurePipeline.SourceMap.Document
import ClosurePipeline.Proofs.Json.RoundTrip
import ClosurePipeline.Proofs.SourceMap.Mappings

namespace ClosurePipeline

/-! ## Values of a document -/

namespace Json

theorem written_strs (ss : List String) : Written (strs ss) := by
  simp only [strs, Written]
  induction ss with
  | nil => trivial
  | cons s ss ih => exact ⟨trivial, ih⟩

theorem written_contents (cs : List (Option String)) : Written (.arr (cs.map (ofOption .str))) := by
  simp only [Written]
  induction cs with
  | nil => trivial
  | cons c cs ih =>
    refine ⟨?_, ih⟩
    cases c <;> trivial

theorem writtenMembers_iff {ms : List (String × Json)} : WrittenMembers ms ↔ ∀ m ∈ ms, Written m.2 := by
  induction ms with
  | nil => simp [WrittenMembers]
  | cons m ms ih => simp [WrittenMembers, ih]

theorem asList?_strs (ss : List String) : asList? asStr? (strs ss) = some ss := by
  rw [strs, asList?, List.mapM_map]
  exact List.mapM_pure.trans (congrArg some (List.map_id ss))

theorem asList?_contents (cs : List (Option String)) :
    asList? (asNullable? asStr?) (.arr (cs.map (ofOption .str))) = some cs := by
  have hread : asNullable? asStr? ∘ ofOption .str = some := by
    funext c
    cases c <;> rfl
  rw [asList?, List.mapM_map, hread]
  exact List.mapM_pure.trans (congrArg some (List.map_id cs))

end Json

namespace SourceMap

open Mappings (Extent FitsSegment)

namespace Document

theorem written_toJson {d : Document} (h : d.version = 3) : Json.Written d.toJson := by
  have h3 : Json.Written (Json.ofNat 3) := Or.inr ⟨'3', [], by decide, by decide, by decide⟩
  simp only [toJson, Json.objOf, Json.Written, Json.writtenMembers_iff, List.mem_filterMap, List.mem_cons,
    List.not_mem_nil, or_false]
  rintro ⟨k, j⟩ ⟨⟨k', v⟩, hm, hv⟩
  obtain ⟨j', rfl, e⟩ := Option.map_eq_some_iff.1 hv
  cases e
  rcases hm with e | e | e | e | e | e | e <;> simp only [Prod.mk.injEq] at e <;> obtain ⟨-, e⟩ := e
  · cases e
    exact h ▸ h3
  · obtain ⟨s, -, rfl⟩ := Option.map_eq_some_iff.1 e.symm
    trivial
  · obtain ⟨s, -, rfl⟩ := Option.map_eq_some_iff.1 e.symm
    trivial
  · cases e
    exact Json.written_strs _
  · obtain ⟨cs, -, rfl⟩ := Option.map_eq_some_iff.1 e.symm
    exact Json.written_contents cs
  · cases e
    exact Json.written_strs _
  · cases e
    trivial

theorem ofJson?_toJson {d : Document} (h : d.version = 3) : ofJson? d.toJson = some d := by
  obtain ⟨version, file, root, sources, contents, names, mappings⟩ := d
  simp only at h
  subst h
  have hnat : "3".toNat? = some 3 := by simp [String.toNat?, String.Slice.toNat?, String.Slice.isNat]
  have hversion : Json.asNat32? (Json.ofNat 3) = some 3 := by
    rw [Json.ofNat, Json.asNat32?, show toString 3 = "3" from rfl, hnat]
    decide
  have hfields : Json.fields? memberNames (toJson ⟨3, file, root, sources, contents, names, mappings⟩) =
      some [some (Json.ofNat 3), file.map .str, root.map .str, some (Json.strs sources),
        contents.map fun cs => .arr (cs.map (Json.ofOption .str)), some (Json.strs names), some (.str mappings)] := by
    cases file <;> cases root <;> cases contents <;> simp [toJson, Json.objOf, Json.fields?, memberNames]
  have hopt : ∀ o : Option String, Json.fieldOr none (Json.asNullable? Json.asStr?) (o.map .str) = some o := by
    intro o
    cases o <;> rfl
  have hcontents : Json.fieldOr none (Json.asNullable? (Json.asList? (Json.asNullable? Json.asStr?)))
      (contents.map fun cs => .arr (cs.map (Json.ofOption .str))) = some contents := by
    cases contents with
    | none => rfl
    | some cs => simp [Json.fieldOr, Json.asNullable?, Json.asList?_contents]
  have hstrs : ∀ ss : List String, Json.fieldOr [] (Json.asList? Json.asStr?) (some (Json.strs ss)) = some ss :=
    Json.asList?_strs
  have htext : Json.fieldOr "" Json.asStr? (some (.str mappings)) = some mappings := rfl
  simp only [ofJson?, hfields, hversion, hopt, hcontents, hstrs, htext, Option.bind_eq_bind, Option.bind_some]

end Document

/-! ## Maps -/

/-- how many sources and names a map lists -/
def extent (m : SourceMap) : Extent := ⟨m.sources.length, m.names.length⟩

/-- a map that a text can hold -/
structure WellFormed (m : SourceMap) : Prop where
  sorted : Segment.Sorted m.segments
  fits : ∀ s ∈ m.segments, FitsSegment m.extent s
  contents : m.contents.length = m.sources.length

instance (m : SourceMap) : Decidable m.WellFormed :=
  decidable_of_iff (Segment.Sorted m.segments ∧ (∀ s ∈ m.segments, FitsSegment m.extent s) ∧
    m.contents.length = m.sources.length) ⟨fun ⟨h1, h2, h3⟩ => ⟨h1, h2, h3⟩, fun h => ⟨h.sorted, h.fits, h.contents⟩⟩

theorem length_fitContents (contents : List (Option String)) (count : Nat) :
    (fitContents contents count).length = count := by
  simp [fitContents]
  omega

theorem fitContents_written {contents : List (Option String)} {count : Nat} (h : contents.length = count) :
    fitContents ((if contents.any Option.isSome then some contents else none).getD []) count = contents := by
  subst h
  split_ifs with hany
  · simp [fitContents]
  · have hnone : contents = List.replicate contents.length none := by
      rw [List.eq_replicate_iff]
      refine ⟨rfl, fun c hc => ?_⟩
      cases c with
      | none => rfl
      | some s => exact absurd (List.any_eq_true.2 ⟨some s, hc, rfl⟩) hany
    simp [fitContents, ← hnone]

theorem wellFormed_of_ofDocument {d : Document} {m : SourceMap} (h : ofDocument d = .ok m) : m.WellFormed := by
  unfold ofDocument at h
  split_ifs at h
  split at h
  · cases h
  · rename_i segments hdec
    cases h
    exact ⟨(Mappings.decode_fits hdec).2, (Mappings.decode_fits hdec).1, length_fitContents _ _⟩

/-- **A map that was read is well formed.** -/
theorem wellFormed_of_parse {text : String} {m : SourceMap} (h : parse text = .ok m) : m.WellFormed := by
  unfold parse at h
  split at h
  · cases h
  · exact wellFormed_of_ofDocument h

theorem ofDocument_toDocument {m : SourceMap} (h : m.WellFormed) : ofDocument m.toDocument = .ok m := by
  have hdec : Mappings.decode ⟨m.sources.length, m.names.length⟩ (Mappings.encode m.segments) = .ok m.segments :=
    Mappings.decode_encode h.fits h.sorted
  have hcontents := fitContents_written h.contents
  simp only [ofDocument, toDocument, if_true, String.toList_ofList, hdec, hcontents]

/-- **A well-formed map is read back from its text.** -/
theorem parse_render {m : SourceMap} (h : m.WellFormed) : parse m.render = .ok m := by
  have hdoc : (Json.parse? m.render).bind Document.ofJson? = some m.toDocument := by
    rw [render, Json.parse?_compact (Document.written_toJson rfl), Option.bind_some, Document.ofJson?_toJson rfl]
  rw [parse, hdoc]
  exact ofDocument_toDocument h

/-- **Reading and writing lose nothing.** A map whose segments are sorted, whose indices stand for listed sources and
names and which has one content for each source is read back from its document and from its text. What any document was
read as is read again from the document written for it, however the first one spelled it: segments out of order, columns
that go back, empty lines and segments, too few contents or none. -/
theorem read_write_read :
    (∀ m : SourceMap, m.WellFormed → ofDocument m.toDocument = .ok m ∧ parse m.render = .ok m) ∧
      ∀ d : Document, (ofDocument d >>= fun m => ofDocument m.toDocument) = ofDocument d := by
  refine ⟨fun m h => ⟨ofDocument_toDocument h, parse_render h⟩, fun d => ?_⟩
  cases hd : ofDocument d with
  | error e => rfl
  | ok m => exact ofDocument_toDocument (wellFormed_of_ofDocument hd)

/-- a document with an empty line, empty segments, a segment in front of the one before it and contents for one of its
two sources -/
def untidy : Document where
  version := 3
  sources := ["a.ts", "b.ts"]
  contents := some [some "let a;"]
  names := ["x"]
  mappings := ";,KCEAA,,FDDAA;;C"

/-- the map it holds: two sources, a name used twice, a line without segments and a segment without a source -/
def tidied : SourceMap where
  sources := ["a.ts", "b.ts"]
  contents := [some "let a;", none]
  names := ["x"]
  segments := [⟨⟨1, 3⟩, some ⟨0, ⟨1, 0⟩, some 0⟩⟩, ⟨⟨1, 5⟩, some ⟨1, ⟨2, 0⟩, some 0⟩⟩, ⟨⟨3, 1⟩, none⟩]

/-- the untidy document is read as a sorted map, and that map is read back -/
theorem read_write_read_untidy :
    ofDocument untidy = .ok tidied ∧ tidied.WellFormed ∧ ofDocument tidied.toDocument = .ok tidied ∧
    parse tidied.render = .ok tidied := by
  have hlines :
      Mappings.readLines ⟨untidy.sources.length, untidy.names.length⟩ 0 {} (untidy.mappings.toList.splitOn ';') =
      .ok [⟨⟨1, 5⟩, some ⟨1, ⟨2, 0⟩, some 0⟩⟩, ⟨⟨1, 3⟩, some ⟨0, ⟨1, 0⟩, some 0⟩⟩, ⟨⟨3, 1⟩, none⟩] := by decide +kernel
  have hsort : Segment.sort [⟨⟨1, 5⟩, some ⟨1, ⟨2, 0⟩, some 0⟩⟩, ⟨⟨1, 3⟩, some ⟨0, ⟨1, 0⟩, some 0⟩⟩, ⟨⟨3, 1⟩, none⟩] =
      tidied.segments := by cbv
  have hread : ofDocument untidy = .ok tidied := by
    rw [ofDocument, if_pos (show untidy.version = 3 from rfl), Mappings.decode, hlines, Except.map, hsort]
    rfl
  have hwf : tidied.WellFormed := by decide
  have htwice := read_write_read.2 untidy
  rw [hread] at htwice
  exact ⟨hread, hwf, htwice, (read_write_read.1 tidied hwf).2⟩

end SourceMap

end ClosurePipeline
