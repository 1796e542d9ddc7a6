/-
Where the maps of a run point. A map is composed of what the passes left of a unit; each of its places is a place of the
unit's first text, with one exception. Downleveling puts an interface behind a unit it changes, and nothing leads back
from there: such a line stays as it is in the text between the passes, wherever that is in the first text, or behind it.

- `pushBackPass_of_isPlace`: what a pass left leads from a place of the text behind it to one of the text before it, or
  the place is on a line that the pass has put behind the text, and stays;
- `OnSupport`: places on lines of that interface. Closurizing puts nothing behind a text, so these are the only ones
  (`pushBack_of_history`);
- `run_places_lead_back`: the whole of it, through the maps that were written and are read again;
- `decoratedClass_leads_outside`: such a line can be behind the end of the first text.
-/
import Mathlib.Tactic
import ClosurePipeline.Proofs.Pipeline.Lines

namespace ClosurePipeline

namespace Pipeline

open Emitter (mapPath baseMap sourceName)

/-! ## One pass -/

section

variable {l : Ledger} {path : Path} {p : Position}

/-- **A pass leads places back, but for those it has put behind the text.** -/
theorem pushBackPass_of_isPlace {pass : Pass} {cx : Pass.Context} {u u' : SourceUnit}
    (h : Leaves pass cx u u' (l.fragment? path pass)) (hp : Text.IsPlace u'.text.toList p) :
    Text.IsPlace u.text.toList (l.pushBackPass path p pass) ∨
      (u'.text ≠ u.text ∧ l.pushBackPass path p pass = p ∧ ∃ kept, u'.text.toList = kept ++ pass.trailer ∧
        Text.breaks kept < p.line) := by
  unfold Ledger.pushBackPass
  generalize l.fragment? path pass = f at h
  cases h with
  | same => exact Or.inl hp
  | @rewritten es hes hne =>
    have hfragment : (pass.rewrite u es).2 = EditScript.fragmentOf (EditScript.pieces u.text.toList es) := rfl
    dsimp only
    rw [Fragment.pushBack, hfragment]
    rcases Nat.lt_or_ge (Text.breaks (EditScript.textOf (EditScript.pieces u.text.toList es))) p.line with
        hbehind | hwithin
    · refine Or.inr ⟨hne, ?_, _, String.toList_ofList, hbehind⟩
      rw [EditScript.locate?_fragmentOf_eq_none hbehind, Option.getD_none]
    · obtain ⟨o, hlocate, ho⟩ := EditScript.exists_locate?_fragmentOf hwithin
      rw [EditScript.oldOf_pieces] at ho
      rw [hlocate, Option.getD_some]
      exact Or.inl ho

/-- closurizing puts nothing behind a text -/
theorem pushBackPass_closurize {cx : Pass.Context} {u u' : SourceUnit}
    (h : Leaves .closurize cx u u' (l.fragment? path .closurize)) (hp : Text.IsPlace u'.text.toList p) :
    Text.IsPlace u.text.toList (l.pushBackPass path p .closurize) := by
  apply (pushBackPass_of_isPlace h hp).resolve_right
  rintro ⟨-, -, kept, htext, hbehind⟩
  have hline := hp.line_le
  rw [htext, Pass.trailer, List.append_nil] at hline
  omega

end

/-! ## Both passes -/

/-- a place on a line that downleveling has put behind a unit; `mid` is what it has made of the unit -/
structure OnSupport (first mid : SourceUnit) (p : Position) : Prop where
  changed : mid.text ≠ first.text
  /-- the line is behind all that comes from the unit -/
  behind : ∃ kept, mid.text.toList = kept ++ Pass.Downlevel.support.toList ∧ Text.breaks kept < p.line
  held : Text.Holds mid.text.toList p

/-- where the fragments of a unit lead to from the start of a line of its last text -/
theorem pushBack_of_history {σ : Type} [Host σ] {p : Pipeline σ} {g : Generation} {u mid last : SourceUnit}
    {cx cx' : Pass.Context} (h : History p g u mid last cx cx') {l : Nat} (hl : l ≤ Text.breaks last.text.toList) :
    Text.Holds u.text.toList ((p.runPasses g).1.ledger.pushBack u.path ⟨l, 0⟩) ∨
      (mid ≠ u ∧ OnSupport u mid ((p.runPasses g).1.ledger.pushBack u.path ⟨l, 0⟩)) := by
  have hnewest := pushBackPass_closurize h.second (Text.isPlace_lineStart hl)
  have hpush : (p.runPasses g).1.ledger.pushBack u.path ⟨l, 0⟩ = (p.runPasses g).1.ledger.pushBackPass u.path
      ((p.runPasses g).1.ledger.pushBackPass u.path ⟨l, 0⟩ .closurize) .decoratorDownlevel := rfl
  rw [hpush]
  rcases pushBackPass_of_isPlace h.first hnewest with hplace | ⟨hne, hstays, hbehind⟩
  · exact Or.inl hplace.holds
  · rw [hstays]
    exact Or.inr ⟨fun heq => hne (congrArg SourceUnit.text heq), hne, hbehind, hnewest.holds⟩

/-! ## Runs -/

/-- each origin of a composed map is where the fragments of the unit lead to from the start of a line -/
theorem exists_line_of_origin {m : SourceMap} {last : SourceUnit} {output : Path} {source : String}
    {push : Position → Position}
    (hm : m.resolved = (baseMap output last).resolved.map
      fun entry => (entry.1, entry.2.map fun found => ⟨source, push found.position, found.name⟩))
    {s : Segment} (hs : s ∈ m.segments) {o : Origin} (ho : o ∈ s.origin) :
    ∃ l, l < Emitter.mapLines last.text ∧ (m.locate o).source = source ∧ o.position = push ⟨l, 0⟩ := by
  have hentry : (s.generated, some (m.locate o)) ∈ m.resolved :=
    List.mem_map.2 ⟨s, hs, by rw [Option.mem_def.1 ho]; rfl⟩
  rw [hm] at hentry
  obtain ⟨entry, hbase, hpair⟩ := List.mem_map.1 hentry
  obtain ⟨t, ht, rfl⟩ := List.mem_map.1 hbase
  obtain ⟨l, hl, rfl⟩ := Emitter.mem_segments_baseMap ht
  have hfound := Option.some.inj (congrArg Prod.snd hpair)
  exact ⟨l, hl, (congrArg Located.source hfound).symm, (congrArg Located.position hfound).symm⟩

/-- **Maps point into the first text, or to the interface that downleveling appends.** Over every project in memory,
from every pipeline that runs have led to, with any rules and any selection of passes, a run succeeds. At the output of
each unit it has written stands a map that can be read, of a unit with that output: the unit itself, if it shares its
output with no other. Each place of the map is in that unit's source, and it is on a line of the first text and not
behind the end of the line, or it is on a line of the interface in what downleveling made of the unit. Places are pairs
of 32-bit words, so the texts have to have such places. -/
theorem run_places_lead_back {p : Pipeline MemoryHost} (hp : p.Reached) {g : Generation} (hg : g.Project) {e : Emitter}
    (hout : e.outDir.isAbsolute = true) (haddr : ∀ s ∈ p.begun.stages g p.options.passes.passes, s.Addressable) :
    ∃ r q, p.run g e = (.ok r, q) ∧ ∀ path text, r.Emitted path text → ∃ path' text' first map m,
      r.Emitted path' text' ∧ (e.outputPath path').normalize = (e.outputPath path).normalize ∧
      g.units.get? path' = some first ∧ Host.read? q.host (mapPath (e.outputPath path)) = some map ∧
      SourceMap.parse map = .ok m ∧ ∀ s ∈ m.segments, ∀ o ∈ s.origin,
        (m.locate o).source = sourceName (e.outputPath path') path' ∧
        (Text.Holds first.text.toList o.position ∨
          ∃ mid, (p.begun.runPass g .decoratorDownlevel).2.units.get? path' = some mid ∧
            OnSupport first mid o.position) := by
  obtain ⟨r, q, hrun, hmaps⟩ := exists_run_mapped hp.settled hg haddr hout
  refine ⟨r, q, hrun, fun path text hem => ?_⟩
  obtain ⟨u, hu, hok, rfl, rfl⟩ := (mem_files_iff hrun).1 hem.1
  -- the unit that was written to this output last
  obtain ⟨v, hv, hemv, hsame, map, hmap, hread⟩ := hmaps u hu ⟨hok, hem.2⟩
  obtain ⟨first, hfirst, hpath, mid, cx, cx', hist⟩ := exists_history_of_emitted hp.settled.begun hg hv hemv
  obtain ⟨composed, m, hcompose, hparse, -, -, hresolved⟩ := exists_composed hp.settled.begun hg haddr hout hfirst hist
  cases hmap.symm.trans hcompose
  rw [← hpath] at hsame
  have hemitted : r.Emitted first.path v.text := by
    rw [hpath]
    exact ⟨(mem_files_iff hrun).2 ⟨v, hv, hemv.1, rfl, rfl⟩, hemv.2⟩
  refine ⟨first.path, v.text, first, map, m, hemitted, hsame, hg.get?_path hfirst, hread, hparse, fun s hs o ho => ?_⟩
  obtain ⟨l, hl, hsource, hplace⟩ := exists_line_of_origin hresolved hs ho
  refine ⟨hsource, ?_⟩
  have hline : l ≤ Text.breaks v.text.toList := Nat.le_of_lt_succ (hl.trans_le (Emitter.mapLines_le_breaks v.text))
  rw [hplace]
  rcases pushBack_of_history hist hline with hholds | ⟨hne, hsupport⟩
  · exact Or.inl hholds
  · exact Or.inr ⟨mid, hist.downleveled hne, hsupport⟩

/-! ## A class with an annotation -/

/-- a pass that rewrites the only unit of a generation and says nothing about it -/
theorem runPass_of_single {σ : Type} [Host σ] {p : Pipeline σ} {g : Generation} {pass : Pass} {u : SourceUnit}
    {text : String} {f : Fragment} (hunits : g.units.values = [u]) (hskips : p.policy.skips u.path = false)
    (hok : p.hasFailed u.path = false)
    (happly : applyPass pass (p.context g) u = .ok { text := text, fragment := some f }) (hne : text ≠ u.text) :
    p.runPass g pass = ({ p with ledger := p.ledger.record u.path pass f }, g.successor [.parse u.path text]) := by
  have hunit : runOnUnit pass (p.context g) p u =
      ({ p with ledger := p.ledger.record u.path pass f }, some (.parse u.path text)) := by
    rw [runOnUnit, hskips, hok, happly]
    simp [keepOutput, hne]
  rw [runPass, hunits]
  simp only [runOnUnits, hunit, Option.toList_some, List.append_nil]

/-- the class stands on the second of two lines -/
def decorated : SourceUnit := .parse ⟨"/p/a.ts"⟩ "/** @Annotation */ function D() \x7b\x7d\n@D class A \x7b\x7d"

def decoratedClass : Generation := .ofUnits [decorated]

/-- the decorator becomes a property -/
def propertyEdits : List Edit :=
  [.remove 35 38, .insert 47 "\n  static decorators: DecoratorInvocation[] = [\n    \x7b type: D \x7d,\n  ];".toList]

/-- the pieces that downleveling cuts the class into -/
def propertyPieces : List Piece := EditScript.cut 0 decorated.text.toList propertyEdits

/-- the class with its property, and the interface from line 5 on -/
def downleveledText : List Char := EditScript.textOf propertyPieces ++ Pass.Downlevel.support.toList

def downleveled : SourceUnit := .parse ⟨"/p/a.ts"⟩ (String.ofList downleveledText)

/-- the interface becomes a record -/
def recordEdits : List Edit :=
  [.insert 115 "/** @record */\n".toList, .insert 182 (
    "\nfunction DecoratorInvocation() \x7b\x7d\n/** @type \x7b?\x7d */\nDecoratorInvocation.prototype.type;\n".toList ++
      "/** @type \x7b?\x7d */\nDecoratorInvocation.prototype.args;".toList)]

/-- the pieces that closurizing cuts the text with the interface into -/
def recordPieces : List Piece := EditScript.cut 0 downleveledText recordEdits

def closurized : SourceUnit := .parse ⟨"/p/a.ts"⟩ (String.ofList (EditScript.textOf recordPieces))

/-- the pipeline between the passes -/
def betweenPasses : Pipeline MemoryHost :=
  { newInMemory with
    ledger := newInMemory.ledger.record ⟨"/p/a.ts"⟩ .decoratorDownlevel (EditScript.fragmentOf propertyPieces) }

/-- the pipeline behind both -/
def behindPasses : Pipeline MemoryHost :=
  { betweenPasses with
    ledger := betweenPasses.ledger.record ⟨"/p/a.ts"⟩ .closurize (EditScript.fragmentOf recordPieces) }

theorem text_downleveled : downleveled.text.toList = downleveledText := String.toList_ofList

theorem summary_downleveled : downleveled.summary = .ofTokens downleveledText (Lexer.tokenize downleveledText) := by
  rw [downleveled, SourceUnit.parse, ModuleSummary.ofText, String.toList_ofList]

theorem text_closurized : closurized.text.toList = EditScript.textOf recordPieces := String.toList_ofList

/-- texts of different lengths are different; their characters are not compared -/
theorem text_ne_of_length {u v : SourceUnit} (h : u.text.toList.length ≠ v.text.toList.length) : u.text ≠ v.text :=
  fun heq => h (by rw [heq])

theorem lengths_decoratedClass :
    decorated.text.toList.length = 48 ∧ downleveledText.length = 183 ∧ (EditScript.textOf recordPieces).length = 338 ∧
    Text.lineCount (EditScript.textOf recordPieces) = 15 ∧
    behindPasses.ledger.pushBack ⟨"/p/a.ts"⟩ ⟨5, 0⟩ = ⟨5, 0⟩ := by
  decide +kernel

theorem runPass_decoratedClass :
    newInMemory.begun.runPass decoratedClass .decoratorDownlevel =
      (betweenPasses, decoratedClass.successor [downleveled]) := by
  have hedits : Pass.Downlevel.edits (newInMemory.begun.context decoratedClass) decorated = .ok propertyEdits := by
    decide +kernel
  have hne : downleveled.text ≠ decorated.text := by
    obtain ⟨hbefore, hbehind, -⟩ := lengths_decoratedClass
    apply text_ne_of_length
    rw [text_downleveled, hbefore, hbehind]
    decide
  refine runPass_of_single (u := decorated) rfl (by decide) rfl ?_ hne
  have hsome : propertyEdits.isEmpty = false := rfl
  simp only [applyPass, Pass.Downlevel.apply, hedits, hsome, bind, Except.bind, Bool.false_eq_true, if_false]
  rw [EditScript.run_of_pairwise (by decide), downleveledText, propertyPieces]

theorem runPass_downleveled : betweenPasses.runPass (decoratedClass.successor [downleveled]) .closurize =
    (behindPasses, (decoratedClass.successor [downleveled]).successor [closurized]) := by
  obtain ⟨hedits, hdiagnostics, hexterns⟩ : downleveled.summary.declarations.flatMap
        (Pass.ClosureDocs.editsFor (betweenPasses.context (decoratedClass.successor [downleveled])) downleveled) =
          recordEdits ∧
      Pass.ClosureDocs.diagnostics (betweenPasses.context (decoratedClass.successor [downleveled])) downleveled = [] ∧
      Pass.ClosureDocs.externs downleveled = none := by
    unfold Pass.ClosureDocs.editsFor Pass.ClosureDocs.diagnostics Pass.ClosureDocs.externs
    rw [summary_downleveled, text_downleveled]
    decide +kernel
  have hne : closurized.text ≠ downleveled.text := by
    obtain ⟨-, hbefore, hbehind, -⟩ := lengths_decoratedClass
    apply text_ne_of_length
    rw [text_closurized, text_downleveled, hbefore, hbehind]
    decide
  refine runPass_of_single (u := downleveled) rfl (by decide) rfl ?_ hne
  have hsome : recordEdits.isEmpty = false := rfl
  simp only [applyPass, Pass.ClosureDocs.apply, hedits, hdiagnostics, hexterns, hsome, Bool.false_eq_true, if_false]
  rw [EditScript.run_of_pairwise (by decide), text_downleveled, List.append_nil, recordPieces]

theorem runPasses_decoratedClass : newInMemory.begun.runPasses decoratedClass =
    (behindPasses, (decoratedClass.successor [downleveled]).successor [closurized]) := by
  have hpasses : newInMemory.begun.options.passes.passes = [.decoratorDownlevel, .closurize] := rfl
  rw [runPasses_eq, hpasses, runEach_cons, runPass_decoratedClass, runEach_cons, runPass_downleveled]
  rfl

theorem addressable_decoratedClass :
    ∀ s ∈ newInMemory.begun.stages decoratedClass newInMemory.options.passes.passes, s.Addressable := by
  obtain ⟨hdecorated, hdownleveled, hclosurized, -⟩ := lengths_decoratedClass
  rw [← text_downleveled] at hdownleveled
  rw [← text_closurized] at hclosurized
  have hpasses : newInMemory.options.passes.passes = [.decoratorDownlevel, .closurize] := rfl
  have hsingle : ∀ {s : Generation} {u : SourceUnit}, s.units.values = [u] → u.text.toList.length ≤ 338 →
      s.Addressable := by
    intro s u hunits hlength v hv
    rw [hunits, List.mem_singleton] at hv
    have hlimit : 2 * 338 < Mappings.indexLimit := by decide
    exact Text.addressable_of_length (hv ▸ by omega)
  rw [hpasses]
  simp only [stages, runPass_decoratedClass, runPass_downleveled, List.mem_cons, List.not_mem_nil, or_false]
  rintro s (rfl | rfl | rfl)
  · exact hsingle (u := decorated) rfl (by omega)
  · exact hsingle (u := downleveled) rfl (by omega)
  · exact hsingle (u := closurized) rfl (by omega)

theorem project_decoratedClass : decoratedClass.Project := Generation.project_ofUnits (by decide)

/-- the unit is written -/
theorem emitted_decoratedClass_iff {e : Emitter} {r : RunResult} {q : Pipeline MemoryHost}
    (hrun : newInMemory.run decoratedClass e = (.ok r, q)) {path : Path} {text : String} :
    r.Emitted path text ↔ path = ⟨"/p/a.ts"⟩ ∧ text = closurized.text := by
  have hfiles : r.files = [(⟨"/p/a.ts"⟩, closurized.text)] := by
    rw [files_of_run hrun, runPasses_decoratedClass]
    rfl
  have hdecl : Path.isDeclarationFile ⟨"/p/a.ts"⟩ = false := by decide
  rw [RunResult.Emitted, hfiles, List.mem_singleton, Prod.mk.injEq]
  constructor
  · rintro ⟨h, -⟩
    exact h
  · rintro ⟨rfl, rfl⟩
    exact ⟨⟨rfl, rfl⟩, hdecl⟩

/-- places are in the first text, or on the lines of the interface -/
theorem run_places_lead_back_decoratedClass :
    newInMemory.Reached ∧ decoratedClass.Project ∧ ∃ r q map m, newInMemory.run decoratedClass ⟨⟨"/p"⟩, ⟨"/o"⟩⟩ =
      (.ok r, q) ∧ Host.read? q.host ⟨"/o/a.js.map"⟩ = some map ∧ SourceMap.parse map = .ok m ∧
      ∀ s ∈ m.segments, ∀ o ∈ s.origin,
        Text.Holds decorated.text.toList o.position ∨
        (4 < o.position.line ∧ Text.Holds downleveledText o.position) := by
  have hp : newInMemory.Reached := .fresh _ _ _
  obtain ⟨r, q, hrun, hmaps⟩ := run_places_lead_back hp project_decoratedClass (e := ⟨⟨"/p"⟩, ⟨"/o"⟩⟩)
    (by decide +kernel) addressable_decoratedClass
  obtain ⟨path, text, first, map, m, hem, -, hfirst, hread, hparse, hplaces⟩ :=
    hmaps _ _ ((emitted_decoratedClass_iff hrun).2 ⟨rfl, rfl⟩)
  obtain ⟨rfl, rfl⟩ := (emitted_decoratedClass_iff hrun).1 hem
  have hdecorated : first = decorated := (Option.some.inj hfirst).symm
  subst hdecorated
  refine ⟨hp, project_decoratedClass, r, q, map, m, hrun, hread, hparse, fun s hs o ho => ?_⟩
  apply (hplaces s hs o ho).2.imp_right
  rintro ⟨mid, hmid, -, ⟨kept, htext, hline⟩, hheld⟩
  rw [runPass_decoratedClass] at hmid
  have hdownleveled : mid = downleveled := (Option.some.inj hmid).symm
  subst hdownleveled
  rw [text_downleveled] at htext hheld
  have hkept : Text.breaks kept = 4 := by
    rw [← List.append_cancel_right htext]
    decide +kernel
  exact ⟨hkept ▸ hline, hheld⟩

/-- an answer of a map is the origin of a segment -/
theorem exists_segment_of_lookup {m : SourceMap} {p : Position} {found : Located} (h : m.lookup p = some found) :
    ∃ s ∈ m.segments, ∃ o ∈ s.origin, o.position = found.position := by
  obtain ⟨s, hs, h⟩ := Option.bind_eq_some_iff.1 h
  obtain ⟨o, ho, h⟩ := Option.bind_eq_some_iff.1 h
  obtain ⟨source, -, h⟩ := Option.bind_eq_some_iff.1 h
  cases h
  exact ⟨s, SourceMap.mem_of_covering? hs, o, ho, rfl⟩

/-- **Maps can point behind the first text**: a new pipeline with both passes writes a map with a place on line 5 of a
text that has two lines. -/
theorem decoratedClass_leads_outside :
    ∃ r q map m, newInMemory.run decoratedClass ⟨⟨"/p"⟩, ⟨"/o"⟩⟩ = (.ok r, q) ∧ r.Emitted ⟨"/p/a.ts"⟩ closurized.text ∧
      decoratedClass.units.get? ⟨"/p/a.ts"⟩ = some decorated ∧ Host.read? q.host ⟨"/o/a.js.map"⟩ = some map ∧
      SourceMap.parse map = .ok m ∧ ∃ s ∈ m.segments, ∃ o ∈ s.origin,
        ¬ Text.Holds decorated.text.toList o.position := by
  have hp : newInMemory.Settled := (Reached.fresh _ _ _ : newInMemory.Reached).settled
  have hg := project_decoratedClass
  have hout : (⟨⟨"/p"⟩, ⟨"/o"⟩⟩ : Emitter).outDir.isAbsolute = true := by decide +kernel
  obtain ⟨r, q, hrun, hmaps⟩ := exists_run hp hg addressable_decoratedClass hout
  have hemitted := (emitted_decoratedClass_iff hrun).2 ⟨rfl, rfl⟩
  have hunits : (newInMemory.begun.runPasses decoratedClass).2.units.values = [closurized] := by
    rw [runPasses_decoratedClass]
    rfl
  have hlast : closurized ∈ (newInMemory.begun.runPasses decoratedClass).2.units.values := by
    rw [hunits]
    exact List.mem_singleton_self _
  have hok : (newInMemory.begun.runPasses decoratedClass).1.Emitted closurized := by
    rw [runPasses_decoratedClass]
    exact ⟨rfl, hemitted.2⟩
  obtain ⟨composed, hmap, hread⟩ := hmaps closurized hlast hok fun v hv _ _ => by
    rw [hunits, List.mem_singleton] at hv
    rw [hv]
  obtain ⟨first, hfirst, -, mid, cx, cx', hist⟩ := exists_history_of_emitted hp.begun hg hlast hok
  have hdecorated : first = decorated := List.mem_singleton.1 hfirst
  subst hdecorated
  obtain ⟨composed', m, hmap', hparse, hlookup⟩ := exists_mapOf hp.begun hg addressable_decoratedClass hout hfirst hist
  cases hmap.symm.trans hmap'
  obtain ⟨-, -, -, hlines, hpush⟩ := lengths_decoratedClass
  have hline : 5 < Emitter.mapLines closurized.text := by
    rw [Emitter.mapLines, text_closurized, hlines]
    decide
  obtain ⟨s, hs, o, ho, hplace⟩ := exists_segment_of_lookup (hlookup 5 hline)
  refine ⟨r, q, composed, m, hrun, hemitted, rfl, hread, hparse, s, hs, o, ho, ?_⟩
  have hfive : o.position = ⟨5, 0⟩ := by
    rw [hplace, runPasses_decoratedClass]
    dsimp only
    rw [show decorated.path = ⟨"/p/a.ts"⟩ from rfl, hpush]
  rw [hfive]
  decide +kernel

end Pipeline

end ClosurePipeline
