/-
Where an emitter writes and what it writes there.

- `exists_outputs`: an output and its map stand in one directory, under a name that ends in `.js` and that name with
  `.map` behind it (`SideBySide`). So a map is never an output (`SideBySide.normalize_ne`), and two maps are one file
  exactly if their outputs are (`SideBySide.normalize_map_iff`);
- `SideBySide.normalize_join_sourceName`: read from the directory of the map, the source name leads back to the unit;
- `lookup_baseMap`, `parse_baseMap`: the map of a unit sends the start of each line to itself, and is read back as it
  was written.
-/
import Mathlib.Tactic
import ClosurePipeline.Output.Emitter
import ClosurePipeline.Proofs.Edit.Copied
import ClosurePipeline.Proofs.Path.Relative
import ClosurePipeline.Proofs.SourceMap.Document

namespace ClosurePipeline

/-! ## Output paths -/

theorem Path.stack_of_stretch {p : Path} {above : List Component} {n : String}
    (hs : stretch p.text.toList = above ++ [.name n]) :
    p.stack = .name n :: above.foldl resolveStep (if p.isAbsolute then [.root] else []) := by
  rw [stack_eq, hs, List.foldl_append]
  rfl

namespace Emitter

/-- the ending of an output -/
def scriptEnding : List Char := ['.', 'j', 's']

/-- the ending of its map -/
def mapEnding : List Char := ['.', 'j', 's', '.', 'm', 'a', 'p']

/-- an output and its map, side by side -/
structure SideBySide (o m : Path) (above : List Component) (stem : List Char) : Prop where
  output : Path.stretch o.text.toList = above ++ [.name (String.ofList (stem ++ scriptEnding))]
  map : Path.stretch m.text.toList = above ++ [.name (String.ofList (stem ++ mapEnding))]
  start : m.isAbsolute = o.isAbsolute

theorem isAbsolute_append {p : Path} (hp : p.text.toList ≠ []) (s : String) :
    Path.isAbsolute ⟨p.text ++ s⟩ = p.isAbsolute := by
  unfold Path.isAbsolute
  rw [String.toList_append]
  cases ht : p.text.toList with
  | nil => exact absurd ht hp
  | cons c cs => rfl

theorem toList_outputPath (e : Emitter) (source : Path) : (e.outputPath source).text.toList =
    (e.outDir.join (e.rootDir.relativeTo source).withoutSourceEnding).text.toList ++ scriptEnding := by
  have hjs : ".js".toList = scriptEnding := by decide
  rw [outputPath, String.toList_append, hjs]

theorem toList_mapPath (e : Emitter) (source : Path) : (mapPath (e.outputPath source)).text.toList =
    (e.outDir.join (e.rootDir.relativeTo source).withoutSourceEnding).text.toList ++ mapEnding := by
  have hmap : ".map".toList = ['.', 'm', 'a', 'p'] := by decide
  rw [mapPath, String.toList_append, toList_outputPath, hmap, List.append_assoc]
  rfl

theorem exists_outputs (e : Emitter) (source : Path) :
    ∃ above stem, SideBySide (e.outputPath source) (mapPath (e.outputPath source)) above stem := by
  obtain ⟨above, stem, -, hname⟩ :=
    Path.exists_stretch_append (e.outDir.join (e.rootDir.relativeTo source).withoutSourceEnding).text.toList
  refine ⟨above, stem, ?_, ?_, isAbsolute_append ?_ _⟩
  · rw [toList_outputPath]
    exact hname scriptEnding (by decide) (by decide)
  · rw [toList_mapPath]
    exact hname mapEnding (by decide) (by decide)
  · rw [toList_outputPath]
    simp [scriptEnding]

theorem isAbsolute_outputPath {e : Emitter} (hout : e.outDir.isAbsolute = true) (source : Path) :
    (e.outputPath source).isAbsolute = true := by
  have habs : (e.outDir.join (e.rootDir.relativeTo source).withoutSourceEnding).isAbsolute = true :=
    Path.isAbsolute_join hout
  rw [outputPath, isAbsolute_append, habs]
  intro hnil
  simp [Path.isAbsolute, hnil] at habs

variable {o o' m m' : Path} {above above' : List Component} {stem stem' : List Char}

/-- two maps are one file exactly if their outputs are -/
theorem SideBySide.normalize_map_iff (h : SideBySide o m above stem) (h' : SideBySide o' m' above' stem') :
    m.normalize = m'.normalize ↔ o.normalize = o'.normalize := by
  have hstacks : m.stack = m'.stack ↔ o.stack = o'.stack := by
    rw [Path.stack_of_stretch h.map, Path.stack_of_stretch h'.map, Path.stack_of_stretch h.output,
      Path.stack_of_stretch h'.output, h.start, h'.start]
    simp only [List.cons.injEq, Component.name.injEq, String.ofList_inj, List.append_cancel_right_eq]
  constructor
  · intro he
    exact Path.normalize_eq_of_stack_eq (hstacks.1 (Path.stack_eq_of_normalize_eq he))
  · intro he
    exact Path.normalize_eq_of_stack_eq (hstacks.2 (Path.stack_eq_of_normalize_eq he))

/-- an output is never a map -/
theorem SideBySide.normalize_ne (h : SideBySide o m above stem) (h' : SideBySide o' m' above' stem') :
    o.normalize ≠ m'.normalize := by
  intro he
  have hstack := Path.stack_eq_of_normalize_eq he
  rw [Path.stack_of_stretch h.output, Path.stack_of_stretch h'.map] at hstack
  simp only [List.cons.injEq, Component.name.injEq, String.ofList_inj] at hstack
  have hlast := congrArg List.getLast? hstack.1
  simp [scriptEnding, mapEnding] at hlast

theorem SideBySide.extension?_map (h : SideBySide o m above stem) : m.extension? = some "map" := by
  unfold Path.extension?
  rw [Path.fileName?_of_stretch h.map]
  simp [mapEnding]

theorem SideBySide.extension?_output (h : SideBySide o m above stem) : o.extension? ≠ some "map" := by
  unfold Path.extension?
  rw [Path.fileName?_of_stretch h.output]
  cases hstem : stem.reverse <;> simp [scriptEnding, hstem]

/-- read from the directory of the map, the name of a source leads back to it -/
theorem SideBySide.normalize_join_sourceName (h : SideBySide o m above stem) (ho : o.isAbsolute = true) {source : Path}
    (habs : source.isAbsolute = true) (hslash : '\\' ∉ source.text.toList) :
    ((m.parent?.getD .empty).join ⟨sourceName o source⟩).normalize = source.normalize := by
  obtain ⟨d, hd, hdabs, hds⟩ := Path.exists_parent? ho h.output
  obtain ⟨d', hd', hdabs', hds'⟩ := Path.exists_parent? (h.start.trans ho) h.map
  have hstack : d'.stack = d.stack := by
    rw [Path.stack_of_isAbsolute hdabs, Path.stack_of_isAbsolute hdabs', hds, hds']
  have hname : (⟨sourceName o source⟩ : Path) = d.relativeTo source := by
    rw [sourceName, hd, Option.getD_some, Path.toSlash_relativeTo hslash]
  refine Path.normalize_eq_of_stack_eq ?_
  rw [hd', Option.getD_some, hname, Path.stack_join _ (Path.isAbsolute_relativeTo hdabs habs), hstack,
    ← Path.stack_join _ (Path.isAbsolute_relativeTo hdabs habs), Path.stack_join_relativeTo hdabs habs]

/-! ## The map of a unit -/

/-- the start of each of the first lines, paired with itself -/
def lineStarts (lines : Nat) : Fragment := ⟨(List.range lines).map fun l => (⟨l, 0⟩, ⟨l, 0⟩)⟩

/-- how many lines the map of a text has -/
def mapLines (text : String) : Nat := max (Text.lineCount text.toList) 1

theorem baseMap_eq (output : Path) (unit : SourceUnit) : baseMap output unit =
    ⟨some (output.fileName?.getD ""), none, [sourceName output unit.path], [none], [],
      Draft.dropRepeats (Segment.sort (lineStarts (mapLines unit.text)).toSegments)⟩ := by
  simp [baseMap, Draft.addSource, Draft.addIdentityLines, Draft.build, Fragment.toSegments, lineStarts, mapLines,
    List.map_map, Function.comp_def]

theorem locate?_lineStarts {lines l : Nat} (h : l < lines) : (lineStarts lines).locate? ⟨l, 0⟩ = some ⟨l, 0⟩ := by
  apply Fragment.locate?_of_originOf?
  have hmem : (⟨l, 0⟩, ⟨l, 0⟩) ∈ (lineStarts lines).pairs := List.mem_map.2 ⟨l, List.mem_range.2 h, rfl⟩
  cases hfind : (lineStarts lines).pairs.find? fun q => q.1 = ⟨l, 0⟩ with
  | none => exact absurd (List.find?_eq_none.1 hfind _ hmem) (by simp)
  | some q =>
    obtain ⟨x, -, rfl⟩ := List.mem_map.1 (List.mem_of_find?_eq_some hfind)
    have hx : (⟨x, 0⟩ : Position) = ⟨l, 0⟩ := by simpa using List.find?_some hfind
    rw [Fragment.originOf?, hfind, Option.map_some, hx]

/-- the map of a unit sends the start of each line to itself -/
theorem lookup_baseMap (output : Path) {unit : SourceUnit} {l : Nat} (h : l < mapLines unit.text) :
    (baseMap output unit).lookup ⟨l, 0⟩ = some ⟨sourceName output unit.path, ⟨l, 0⟩, none⟩ := by
  have hstamped := (lineStarts (mapLines unit.text)).lookup_stamped (sourceName output unit.path) ⟨l, 0⟩
  rw [locate?_lineStarts h, Fragment.stamped_eq] at hstamped
  rw [baseMap_eq]
  exact hstamped

theorem sources_baseMap (output : Path) (unit : SourceUnit) :
    (baseMap output unit).sources = [sourceName output unit.path] := by
  rw [baseMap_eq]

theorem mem_segments_baseMap {output : Path} {unit : SourceUnit} {s : Segment}
    (hs : s ∈ (baseMap output unit).segments) :
    ∃ l, l < mapLines unit.text ∧ s = ⟨⟨l, 0⟩, some ⟨0, ⟨l, 0⟩, none⟩⟩ := by
  rw [baseMap_eq] at hs
  have hs' := (List.mergeSort_perm _ _).subset ((Draft.dropRepeats_sublist _).subset hs)
  obtain ⟨q, hq, rfl⟩ := Fragment.mem_toSegments.1 hs'
  obtain ⟨l, hl, rfl⟩ := List.mem_map.1 hq
  exact ⟨l, List.mem_range.1 hl, rfl⟩

/-- a map of 32-bit lines is read back as it was written -/
theorem parse_baseMap (output : Path) {unit : SourceUnit} (h : mapLines unit.text ≤ Mappings.indexLimit) :
    SourceMap.parse (baseMap output unit).render = .ok (baseMap output unit) := by
  have hsorted : Segment.Sorted (baseMap output unit).segments := by
    rw [baseMap_eq]
    exact Fragment.sorted_segments_stamped _
  have hcontents : (baseMap output unit).contents.length = (baseMap output unit).sources.length := by
    rw [baseMap_eq]
    rfl
  refine SourceMap.parse_render ⟨hsorted, fun s hs => ?_, hcontents⟩
  obtain ⟨l, hl, rfl⟩ := mem_segments_baseMap hs
  have hzero : 0 < Mappings.indexLimit := by decide
  have hplace : Mappings.FitsPlace ⟨l, 0⟩ := ⟨Nat.lt_of_lt_of_le hl h, hzero⟩
  refine ⟨hplace, fun o ho => ?_⟩
  cases ho
  refine ⟨?_, hzero, hplace, by simp⟩
  change 0 < (baseMap output unit).sources.length
  rw [sources_baseMap]
  exact Nat.one_pos

/-- the first character of a line is on a line of the map -/
theorem lt_mapLines {text : String} {l i : Nat} (h : Text.StartsLine text.toList l i) : l < mapLines text := by
  obtain ⟨hi, hl, -⟩ := h
  refine Nat.lt_of_lt_of_le ?_ (Nat.le_max_left _ _)
  have hsplit : Text.breaks text.toList = l + Text.breaks (text.toList.drop i) := by
    conv_lhs => rw [← List.take_append_drop i text.toList]
    rw [Text.breaks, List.count_append, ← hl]
    rfl
  have hrest : text.toList.drop i ≠ [] := by simpa using hi
  have hlast : text.toList.getLast? = (text.toList.drop i).getLast? := by
    conv_lhs => rw [← List.take_append_drop i text.toList]
    rw [List.getLast?_append_of_ne_nil _ hrest]
  unfold Text.lineCount
  rw [hlast]
  cases hend : (text.toList.drop i).getLast? with
  | none => exact absurd (List.getLast?_eq_none_iff.1 hend) hrest
  | some c =>
    dsimp only
    split_ifs with hc
    · have hcount : 0 < Text.breaks (text.toList.drop i) := List.count_pos_iff.2 (hc ▸ List.mem_of_getLast? hend)
      omega
    · omega

theorem mapLines_le_breaks (text : String) : mapLines text ≤ Text.breaks text.toList + 1 := by
  have hcount : Text.lineCount text.toList ≤ Text.breaks text.toList + 1 := by
    unfold Text.lineCount
    split
    · omega
    · split_ifs <;> omega
  exact Nat.max_le.2 ⟨hcount, Nat.succ_pos _⟩

theorem mapLines_le {text : String} (h : Text.Addressable text.toList) : mapLines text ≤ Mappings.indexLimit := by
  have hplace := (h text.toList.length).1
  rw [List.take_length, Text.line_placeAfter] at hplace
  exact (mapLines_le_breaks text).trans hplace

/-! ## Both outputs of a unit -/

/-- where the output is written, the map is next -/
theorem emit_of_write {σ : Type} [Host σ] {e : Emitter} {h written : σ} {unit : SourceUnit}
    (hdecl : unit.path.isDeclarationFile = false)
    (hwrite : Host.write h (e.outputPath unit.path) (outputText (e.outputPath unit.path) unit.text) =
      (.ok (), written)) :
    e.emit h unit =
      Host.write written (mapPath (e.outputPath unit.path)) (baseMap (e.outputPath unit.path) unit).render := by
  unfold emit
  rw [if_neg (by simp [hdecl])]
  simp only [hwrite]

end Emitter

end ClosurePipeline
