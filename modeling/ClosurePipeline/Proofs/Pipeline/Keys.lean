/-
The emitter and the ledger agree on keys. An emitter writes the name of a unit as seen from the directory of its output,
and composition reads the name from the directory of the map. Between the two the path of the unit comes back, and with
it the fragments recorded under it.

- `Ledger.Keyed`: a source name leads from the map at a path to the fragments of a unit, whatever the host and the
  ledger hold;
- `Emitter.keyed_sourceName`: the name an emitter writes is such a name;
- `Emitter.exists_document_of_emit`: what is written at the path of the map is a document with that one source;
- `Emitter.emit_keyed`: the whole of it, up to the places the composed map leads to.
-/
import Mathlib.Tactic
import ClosurePipeline.Proofs.Host.Memory
import ClosurePipeline.Proofs.Output.Emitter
import ClosurePipeline.Proofs.Pipeline.Compose

namespace ClosurePipeline

namespace Ledger

/-- from the map at `output`, a source name leads to the fragments of `unit` -/
structure Keyed (output : Path) (name : String) (unit : Path) : Prop where
  key : ∀ h : MemoryHost, sourceKey h output name = unit
  /-- they are folded in newest first -/
  pending : ∀ (l : Ledger) (h : MemoryHost), l.pending h output [name] = (l.get unit).reverse.map fun e => (name, e.2)
  /-- a fragment is found as soon as it is recorded -/
  recorded : ∀ (l : Ledger) (h : MemoryHost) (pass : Pass) (f : Fragment),
      (name, f) ∈ (l.record unit pass f).pending h output [name]

theorem mem_get_record (l : Ledger) (path : Path) (pass : Pass) (f : Fragment) :
    (pass, f) ∈ (l.record path pass f).get path := by
  rw [get_record, if_pos (Path.Same.refl path)]
  exact List.mem_of_find?_eq_some (find?_setFragment_self pass f (l.get path))

/-- the key decides what is found -/
theorem Keyed.of_key {output unit : Path} {name : String} (hkey : ∀ h : MemoryHost, sourceKey h output name = unit) :
    Keyed output name unit := by
  have hpending :
      ∀ (l : Ledger) (h : MemoryHost), l.pending h output [name] = (l.get unit).reverse.map fun e => (name, e.2) := by
    intro l h
    rw [Ledger.pending, List.flatMap_cons, List.flatMap_nil, List.append_nil, hkey]
  refine ⟨hkey, hpending, fun l h pass f => ?_⟩
  rw [hpending]
  exact List.mem_map.2 ⟨(pass, f), List.mem_reverse.2 (mem_get_record l unit pass f), rfl⟩

end Ledger

namespace Emitter

/-- the name an emitter writes leads back to the unit -/
theorem keyed_sourceName {e : Emitter} (hout : e.outDir.isAbsolute = true) {unit : Path} (habs : unit.isAbsolute = true)
    (hnormal : unit.normalize = unit) (hslash : '\\' ∉ unit.text.toList) :
    Ledger.Keyed (mapPath (e.outputPath unit)) (sourceName (e.outputPath unit) unit) unit := by
  obtain ⟨above, stem, hside⟩ := exists_outputs e unit
  refine Ledger.Keyed.of_key fun h => ?_
  rw [Ledger.sourceKey, hside.normalize_join_sourceName (isAbsolute_outputPath hout unit) habs hslash,
    MemoryHost.canonical_eq, hnormal, hnormal]

/-- the text of the map of a unit is a document with one source, however long the unit is -/
theorem document_render_baseMap (output : Path) (unit : SourceUnit) :
    ∃ d, (Json.parse? (baseMap output unit).render).bind SourceMap.Document.ofJson? = some d ∧
      d.sources = [sourceName output unit.path] := by
  refine ⟨(baseMap output unit).toDocument, ?_, sources_baseMap output unit⟩
  rw [SourceMap.render, Json.parse?_compact (SourceMap.Document.written_toJson rfl), Option.bind_some,
    SourceMap.Document.ofJson?_toJson rfl]

/-- writing into memory succeeds, and the map stands at its path -/
theorem exists_document_of_emit (e : Emitter) {unit : SourceUnit} (hdeclaration : unit.path.isDeclarationFile = false)
    (h : MemoryHost) :
    ∃ written, e.emit h unit = (.ok (), written) ∧
      Host.read? written (mapPath (e.outputPath unit.path)) = some (baseMap (e.outputPath unit.path) unit).render := by
  refine ⟨(h.write (e.outputPath unit.path) (outputText (e.outputPath unit.path) unit.text)).write
    (mapPath (e.outputPath unit.path)) (baseMap (e.outputPath unit.path) unit).render, ?_, ?_⟩
  · rw [emit_of_write hdeclaration rfl]
    rfl
  · rw [MemoryHost.read?_write, if_pos rfl]

/-- the composed map sends the start of each line through the fragments of the unit -/
theorem exists_compose_of_keyed {output unit : Path} {source : SourceUnit}
    (hkeyed : Ledger.Keyed (mapPath output) (sourceName output source.path) unit)
    (hlines : mapLines source.text ≤ Mappings.indexLimit) {l : Ledger} (hl : l.Built) (h : MemoryHost) :
    ∃ composed m, l.compose h (mapPath output) (baseMap output source).render = .ok composed ∧
      SourceMap.parse composed = .ok m ∧ ∀ k, k < mapLines source.text →
        m.lookup ⟨k, 0⟩ = some ⟨sourceName output source.path, l.pushBack unit ⟨k, 0⟩, none⟩ := by
  have hnodup : (baseMap output source).sources.Nodup := by
    rw [sources_baseMap]
    exact List.nodup_singleton _
  obtain ⟨composed, m, hcompose, hread, hlookup, -⟩ :=
    Ledger.compose_eq_ok hl.ordered h (mapPath output) (parse_baseMap output hlines) hnodup
    fun s _ e he => hl.fits _ e he
  refine ⟨composed, m, hcompose, hread, fun k hk => ?_⟩
  rw [hlookup, lookup_baseMap output hk, Option.map_some, hkeyed.key]

/-- **Emitter and composition agree on the key of a unit.** Take any root, any absolute output directory, normal or not,
and a unit that is written, with an absolute, normal path without backslashes, below the root or not. Emitting it into
memory succeeds and leaves, at the path of the map, a document with one source name. Read from the directory of the map,
the name leads to exactly the path of the unit, on every host in memory. So all fragments recorded under that path are
found, and the composed map sends the start of each line through them. Lines are 32-bit words, so there the unit has no
more lines than that. -/
theorem emit_keyed {e : Emitter} (hout : e.outDir.isAbsolute = true) {unit : SourceUnit}
    (habs : unit.path.isAbsolute = true) (hnormal : unit.path.normalize = unit.path)
    (hslash : '\\' ∉ unit.path.text.toList) (hdeclaration : unit.path.isDeclarationFile = false) (h : MemoryHost) :
    ∃ written text document name, e.emit h unit = (.ok (), written) ∧
      Host.read? written (mapPath (e.outputPath unit.path)) = some text ∧
      (Json.parse? text).bind SourceMap.Document.ofJson? = some document ∧ document.sources = [name] ∧
      Ledger.Keyed (mapPath (e.outputPath unit.path)) name unit.path ∧
      (mapLines unit.text ≤ Mappings.indexLimit → ∀ l : Ledger, l.Built → ∀ h' : MemoryHost,
        ∃ composed m, l.compose h' (mapPath (e.outputPath unit.path)) text = .ok composed ∧
          SourceMap.parse composed = .ok m ∧ ∀ k, k < mapLines unit.text →
            m.lookup ⟨k, 0⟩ = some ⟨name, l.pushBack unit.path ⟨k, 0⟩, none⟩) := by
  obtain ⟨written, hemit, hread⟩ := exists_document_of_emit e hdeclaration h
  obtain ⟨document, hdocument, hsources⟩ := document_render_baseMap (e.outputPath unit.path) unit
  have hkeyed := keyed_sourceName hout habs hnormal hslash
  exact ⟨written, _, document, _, hemit, hread, hdocument, hsources, hkeyed,
    fun hlines l hl h' => exists_compose_of_keyed hkeyed hlines hl h'⟩

/-- an output directory with detours -/
def detours : Emitter := ⟨⟨"/p/src"⟩, ⟨"/p/./x/../dist/"⟩⟩

/-- a unit beside the root of `detours`: its output climbs out of the output directory -/
def outsider : SourceUnit := .parse ⟨"/p/lib/a.ts"⟩ "let a;\nlet b;\n"

/-- the unit that climbs out, and a fragment recorded for it -/
theorem emit_keyed_outsider :
    detours.outDir.isAbsolute = true ∧ outsider.path.isAbsolute = true ∧ outsider.path.normalize = outsider.path ∧
    '\\' ∉ outsider.path.text.toList ∧ outsider.path.isDeclarationFile = false ∧
    mapLines outsider.text ≤ Mappings.indexLimit ∧
    ∃ written text document name composed m, detours.emit ({} : MemoryHost) outsider = (.ok (), written) ∧
      Host.read? written ⟨"/p/./x/../dist/../lib/a.js.map"⟩ = some text ∧
      (Json.parse? text).bind SourceMap.Document.ofJson? = some document ∧ document.sources = [name] ∧
      Ledger.Keyed ⟨"/p/./x/../dist/../lib/a.js.map"⟩ name ⟨"/p/lib/a.ts"⟩ ∧
      (Ledger.record {} ⟨"/p/lib/a.ts"⟩ .closurize Ledger.lineInFront).compose ({} : MemoryHost)
        ⟨"/p/./x/../dist/../lib/a.js.map"⟩ text = .ok composed ∧
      SourceMap.parse composed = .ok m ∧ m.lookup ⟨1, 0⟩ = some ⟨name, ⟨0, 0⟩, none⟩ := by
  have hlines : mapLines outsider.text ≤ Mappings.indexLimit := by decide +kernel
  have hl : (Ledger.record {} ⟨"/p/lib/a.ts"⟩ .closurize Ledger.lineInFront).Built :=
    Ledger.Built.empty.record _ _ (by decide)
  have hout : detours.outDir.isAbsolute = true := by decide +kernel
  have habs : outsider.path.isAbsolute = true := by decide +kernel
  have hnormal : outsider.path.normalize = outsider.path := by decide +kernel
  have hslash : '\\' ∉ outsider.path.text.toList := by decide +kernel
  have hsource : outsider.path.isDeclarationFile = false := by decide +kernel
  obtain ⟨written, text, document, name, hemit, hread, hdocument, hsources, hkeyed, hcompose⟩ :=
    emit_keyed hout habs hnormal hslash hsource ({} : MemoryHost)
  have hpath : mapPath (detours.outputPath outsider.path) = ⟨"/p/./x/../dist/../lib/a.js.map"⟩ := by decide +kernel
  obtain ⟨composed, m, hcomposed, hparse, hlookup⟩ := hcompose hlines _ hl {}
  rw [hpath] at hread hkeyed hcomposed
  refine ⟨hout, habs, hnormal, hslash, hsource, hlines, written, text, document, name, composed, m, hemit, hread,
    hdocument, hsources, hkeyed, hcomposed, hparse, ?_⟩
  rw [hlookup 1 (by decide +kernel)]
  have hplace : (Ledger.record {} ⟨"/p/lib/a.ts"⟩ .closurize Ledger.lineInFront).pushBack outsider.path ⟨1, 0⟩ =
      ⟨0, 0⟩ := by decide +kernel
  rw [hplace]

end Emitter

end ClosurePipeline
