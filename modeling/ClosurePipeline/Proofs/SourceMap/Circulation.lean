/-
Maps in circulation: those read from a text, those stamped from a fragment, and those made of such by retracing, however
often and with whatever source names. Retracing and writing take the strings of a map by their indices without asking;
here both are done once more with each index looked up, failing where there is nothing at it.

- `Orderly`: segments sorted, indices listed, and one content for each source;
- `retrace?_eq`, `Mappings.encode?_eq`: looking up changes nothing, so no index is out of range;
- `circulating_orderly`: every map in circulation is orderly, and retracing it never lists a source or a name twice.
-/
import Mathlib.Tactic
import ClosurePipeline.Proofs.SourceMap.Fragment

namespace ClosurePipeline

/-! ## Writing with each digit looked up -/

namespace Vlq

/-- the digits in the order of their values -/
def alphabet : List Char := "ABCDEFGHIJKLMNOPQRSTUVWXYZabcdefghijklmnopqrstuvwxyz0123456789+/".toList

theorem getElem?_alphabet {n : Nat} (h : n < 64) : alphabet[n]? = some (digit n) := by
  have : ∀ n < 64, alphabet[n]? = some (digit n) := by decide +kernel
  exact this n h

/-- the digits of a natural number, if all are in the alphabet -/
def digits? (n : Nat) : Option (List Char) :=
  if n < 32 then (alphabet[n]?).map fun c => [c]
  else do
    let c ← alphabet[n % 32 + 32]?
    let cs ← digits? (n / 32)
    some (c :: cs)
termination_by n

/-- the digits of integers one after the other -/
def encodeAll? (vs : List Int) : Option (List Char) := (vs.mapM fun v => digits? (zigzag v)).map List.flatten

theorem digits?_eq (n : Nat) : digits? n = some (digits n) := by
  induction n using Nat.strongRecOn with
  | ind n ih =>
    rw [digits?, digits]
    split_ifs with h
    · rw [getElem?_alphabet (by omega), Option.map_some]
    · rw [getElem?_alphabet (by omega), ih (n / 32) (by omega)]
      rfl

theorem encodeAll?_eq (vs : List Int) : encodeAll? vs = some (encodeAll vs) := by
  have hall : (vs.mapM fun v => digits? (zigzag v)) = some (vs.map encode) := by
    simp only [digits?_eq]
    exact List.mapM_pure
  rw [encodeAll?, hall, Option.map_some, encodeAll, List.flatMap_def]

end Vlq

namespace Mappings

/-- writes segments in order, if all digits are in the alphabet -/
def writeSegments? (w : Writer) : List Segment → Option (List Char)
  | [] => some []
  | s :: ss => do
    let (breaks, w) := w.toLine s.generated.line
    let (numbers, sums) := segmentNumbers w.sums s.origin
    let text ← Vlq.encodeAll? ((s.generated.column - w.column) :: numbers)
    let more ← writeSegments? ⟨w.line, false, s.generated.column, sums⟩ ss
    some (breaks ++ (if w.first then [] else [',']) ++ text ++ more)

/-- the mappings text of segments, if all digits are in the alphabet -/
def encode? (segments : List Segment) : Option (List Char) := writeSegments? {} (Segment.sort segments)

theorem writeSegments?_eq (ss : List Segment) : ∀ w : Writer, writeSegments? w ss = some (writeSegments w ss) := by
  induction ss with
  | nil => intro w; rfl
  | cons s ss ih =>
    intro w
    simp only [writeSegments?, writeSegments, Vlq.encodeAll?_eq, ih, Option.bind_eq_bind, Option.bind_some]

/-- **Writing segments never leaves the alphabet.** -/
theorem encode?_eq (segments : List Segment) : encode? segments = some (encode segments) := writeSegments?_eq _ _

end Mappings

namespace SourceMap

/-! ## Retracing with each index looked up -/

/-- what a segment with an origin says, if its indices are listed -/
def locate? (m : SourceMap) (o : Origin) : Option Located := do
  let source ← m.sources[o.source]?
  match o.name with
  | none => some ⟨source, o.position, none⟩
  | some n => (m.names[n]?).map fun name => ⟨source, o.position, some name⟩

/-- adds a segment of `outer`, followed through `inner`, if its indices are listed -/
def retraceSegment? (outer inner : SourceMap) (source : String) (out : SourceMap) (s : Segment) : Option SourceMap :=
  match s.origin with
  | none => some { out with segments := out.segments ++ [s] }
  | some o => do
    let place ← outer.locate? o
    let (place, content) := stepBack inner source place (outer.contents[o.source]?).join
    some (addLocated out s.generated place content)

/-- the map whose places in `source` are followed through `inner`, if all indices are listed -/
def retrace? (outer inner : SourceMap) (source : String) : Option SourceMap :=
  outer.segments.foldlM (retraceSegment? outer inner source) { file := outer.file, sourceRoot := outer.sourceRoot }

theorem locate?_eq {m : SourceMap} {o : Origin} (h : m.IndexedOrigin o) : m.locate? o = some (m.locate o) := by
  obtain ⟨src, position, name⟩ := o
  obtain ⟨hsource, hname⟩ := h
  have hget : m.sources[src]? = some (m.sources.getD src "") := by
    rw [List.getD_eq_getElem?_getD, List.getElem?_eq_getElem hsource, Option.getD_some]
  cases name with
  | none => simp only [locate?, locate, hget, Option.bind_eq_bind, Option.bind_some, Option.bind_none]
  | some n =>
    simp only [locate?, locate, hget, List.getElem?_eq_getElem (hname n rfl), Option.bind_eq_bind, Option.bind_some,
      Option.map_some]

/-- **Retracing an indexed map never leaves its lists.** -/
theorem retrace?_eq {outer : SourceMap} (h : outer.Indexed) (inner : SourceMap) (source : String) :
    outer.retrace? inner source = some (outer.retrace inner source) := by
  have hsegment : ∀ s ∈ outer.segments, ∀ out, retraceSegment? outer inner source out s =
      some (retraceSegment outer inner source out s) := by
    intro s hs out
    unfold retraceSegment? retraceSegment
    cases ho : s.origin with
    | none => rfl
    | some o => simp only [locate?_eq (h s hs o ho), Option.bind_eq_bind, Option.bind_some]
  have hfold : ∀ segments ⊆ outer.segments, ∀ out,
      segments.foldlM (retraceSegment? outer inner source) out =
        some (segments.foldl (retraceSegment outer inner source) out) := by
    intro segments
    induction segments with
    | nil => intro _ out; rfl
    | cons s segments ih =>
      intro hsub out
      rw [List.foldlM_cons, hsegment s (hsub List.mem_cons_self) out, Option.bind_eq_bind, Option.bind_some,
        List.foldl_cons]
      exact ih (fun t ht => hsub (List.mem_cons_of_mem s ht)) _
  exact hfold outer.segments (List.Subset.refl _) _

/-! ## Circulation -/

/-- a map whose segments are sorted, whose indices stand for listed sources and names, and which has one content for
each source -/
structure Orderly (m : SourceMap) : Prop where
  sorted : Segment.Sorted m.segments
  indexed : m.Indexed
  contents : m.contents.length = m.sources.length

/-- a map that was read from a text, stamped from a fragment, or made of such maps by retracing -/
inductive Circulating : SourceMap → Prop where
  | parsed {text : String} {m : SourceMap} (h : parse text = .ok m) : Circulating m
  | stamped (f : Fragment) (name : String) : Circulating (f.stamped name)
  | retraced {outer inner : SourceMap} (houter : Circulating outer) (hinner : Circulating inner) (source : String) :
      Circulating (outer.retrace inner source)

theorem WellFormed.orderly {m : SourceMap} (h : m.WellFormed) : m.Orderly := ⟨h.sorted, h.indexed, h.contents⟩

theorem orderly_stamped (f : Fragment) (name : String) : (f.stamped name).Orderly := by
  rw [Fragment.stamped_eq]
  refine ⟨Fragment.sorted_segments_stamped f, fun s hs o ho => ?_, rfl⟩
  obtain ⟨q, -, e⟩ := Fragment.mem_stamped_iff.1 hs
  rw [e] at ho
  cases ho
  exact ⟨Nat.zero_lt_one, by simp⟩

theorem Orderly.retrace {outer : SourceMap} (h : outer.Orderly) (inner : SourceMap) (source : String) :
    (outer.retrace inner source).Orderly :=
  have hr := retraced_retrace outer inner source
  ⟨sorted_retrace h.sorted inner source, hr.indexed, hr.contents⟩

theorem Circulating.orderly {m : SourceMap} (h : Circulating m) : m.Orderly := by
  induction h with
  | parsed h => exact (wellFormed_of_parse h).orderly
  | stamped f name => exact orderly_stamped f name
  | retraced _ _ source ih _ => exact ih.retrace _ source

/-- **Every map in circulation is orderly.** Its segments are sorted by generated place, every index of a source or name
is below their number, and it has one content for each source. So it can be written, and retraced through any map, with
every index looked up, and after a retracing neither sources nor names are listed twice. -/
theorem circulating_orderly {m : SourceMap} (h : Circulating m) :
    m.Orderly ∧ Mappings.encode? m.segments = some (Mappings.encode m.segments) ∧
      ∀ inner source, Circulating inner → m.retrace? inner source = some (m.retrace inner source) ∧
        (m.retrace inner source).Orderly ∧ (m.retrace inner source).sources.Nodup ∧
        (m.retrace inner source).names.Nodup := by
  have horderly := h.orderly
  refine ⟨horderly, Mappings.encode?_eq _, fun inner source _ => ?_⟩
  have hr := retraced_retrace m inner source
  exact ⟨retrace?_eq horderly.indexed inner source, horderly.retrace inner source, hr.nodupSources, hr.nodupNames⟩

/-- a map that lists a source twice, read from its text and retraced: the sources are listed once each, and retracing
once more keeps them so -/
theorem circulating_orderly_sourceTwice :
    Circulating (sourceTwice.retrace firstLineOnly "mid.js") ∧ ¬ sourceTwice.sources.Nodup ∧
      (sourceTwice.retrace firstLineOnly "mid.js").sources = ["src.ts", "mid.js", "other.ts"] ∧
      (sourceTwice.retrace firstLineOnly "mid.js").Orderly ∧
      ((sourceTwice.retrace firstLineOnly "mid.js").retrace (Fragment.stamped ⟨[(⟨7, 0⟩, ⟨2, 0⟩)]⟩ "src.ts")
        "src.ts").sources.Nodup := by
  have htwice : Circulating sourceTwice := .parsed (parse_render (by decide))
  have hfirst : Circulating firstLineOnly := .parsed (parse_render (by decide))
  have hmap : Circulating (sourceTwice.retrace firstLineOnly "mid.js") := htwice.retraced hfirst "mid.js"
  exact ⟨hmap, by decide, by decide, (circulating_orderly hmap).1,
    ((circulating_orderly hmap).2.2 _ "src.ts" (.stamped _ "src.ts")).2.2.1⟩

end SourceMap

end ClosurePipeline
