/-
Mappings read back. Sorted segments whose numbers fit 32 bits, and whose indices stand for listed sources and names, are
read from the text written for them (`decode_encode`); what is read is always of that kind (`decode_fits`).

The writer goes from line to line and from segment to segment. `Reads` says of a writer's state and the segments still
to write that a reader with the same sums gets them back: the rest of the current line first, then the lines behind it.
One lemma for each step of the writer keeps it.

`ReadsOrigin` and `ReadsSegment` say what a reader has found where it gives an origin or a segment. What holds of all
that is read follows from them.
-/
import Mathlib.Tactic
import ClosurePipeline.SourceMap.Mappings
import ClosurePipeline.Proofs.SourceMap.Vlq

namespace ClosurePipeline

/-! ## The order of places -/

namespace Position

theorem le_iff {p q : Position} : p.le q = true ↔ p.line < q.line ∨ p.line = q.line ∧ p.column ≤ q.column := by
  simp [le]

theorem le_refl (p : Position) : p.le p = true := le_iff.2 (Or.inr ⟨rfl, Nat.le_refl _⟩)

theorem le_trans {p q r : Position} (h1 : p.le q = true) (h2 : q.le r = true) : p.le r = true := by
  rw [le_iff] at *
  omega

theorem le_total (p q : Position) : (p.le q || q.le p) = true := by
  rw [Bool.or_eq_true, le_iff, le_iff]
  omega

theorem le_antisymm {p q : Position} (h1 : p.le q = true) (h2 : q.le p = true) : p = q := by
  rw [le_iff] at *
  obtain ⟨a, b⟩ := p
  obtain ⟨c, d⟩ := q
  simp only [mk.injEq] at *
  omega

end Position

namespace Segment

/-- segments in the order of their generated places -/
def Sorted (segments : List Segment) : Prop := segments.Pairwise fun a b => a.le b = true

instance (segments : List Segment) : Decidable (Sorted segments) := inferInstanceAs (Decidable (List.Pairwise _ _))

theorem sorted_sort (segments : List Segment) : Sorted (sort segments) := by
  refine List.pairwise_mergeSort ?_ ?_ segments
  · intro a b c h1 h2
    exact Position.le_trans h1 h2
  · intro a b
    exact Position.le_total a.generated b.generated

theorem sort_of_sorted {segments : List Segment} (h : Sorted segments) :
    sort segments = segments := List.mergeSort_of_pairwise h

theorem mem_sort {s : Segment} {segments : List Segment} : s ∈ sort segments ↔ s ∈ segments := List.mem_mergeSort

end Segment

namespace Mappings

theorem ok_bind {α β : Type} (a : α) (f : α → Except Fault β) : (Except.ok a >>= f) = f a := pure_bind a f

theorem bind_eq_ok {α β : Type} {x : Except Fault α} {f : α → Except Fault β} {b : β} (h : (x >>= f) = .ok b) :
    ∃ a, x = .ok a ∧ f a = .ok b := by
  cases x with
  | error e => cases h
  | ok a => exact ⟨a, rfl, h⟩

/-- a place whose line and column fit 32 bits -/
def FitsPlace (p : Position) : Prop := p.line < indexLimit ∧ p.column < indexLimit

instance (p : Position) : Decidable (FitsPlace p) := inferInstanceAs (Decidable (_ ∧ _))

/-- an origin whose numbers fit 32 bits and whose indices stand for listed sources and names -/
structure FitsOrigin (extent : Extent) (o : Origin) : Prop where
  source : o.source < extent.sources
  index : o.source < indexLimit
  place : FitsPlace o.position
  name : ∀ n ∈ o.name, n < extent.names ∧ n < indexLimit

instance (extent : Extent) (o : Origin) : Decidable (FitsOrigin extent o) :=
  decidable_of_iff (o.source < extent.sources ∧ o.source < indexLimit ∧ FitsPlace o.position ∧
    ∀ n ∈ o.name, n < extent.names ∧ n < indexLimit)
    ⟨fun ⟨h1, h2, h3, h4⟩ => ⟨h1, h2, h3, h4⟩, fun h => ⟨h.source, h.index, h.place, h.name⟩⟩

/-- a segment whose numbers fit 32 bits and whose indices stand for listed sources and names -/
structure FitsSegment (extent : Extent) (s : Segment) : Prop where
  generated : FitsPlace s.generated
  origin : ∀ o ∈ s.origin, FitsOrigin extent o

instance (extent : Extent) (s : Segment) : Decidable (FitsSegment extent s) :=
  decidable_of_iff (FitsPlace s.generated ∧ ∀ o ∈ s.origin, FitsOrigin extent o)
    ⟨fun ⟨h1, h2⟩ => ⟨h1, h2⟩, fun h => ⟨h.generated, h.origin⟩⟩

/-- a running sum that is an index -/
def FitsSum (v : Int) : Prop := 0 ≤ v ∧ v < indexLimit

/-- running sums that are indices -/
structure FitsSums (s : Sums) : Prop where
  source : FitsSum s.source
  line : FitsSum s.line
  column : FitsSum s.column
  name : FitsSum s.name

theorem fitsSum_zero : FitsSum 0 := by unfold FitsSum indexLimit; omega

theorem fitsSum_natCast {n : Nat} (h : n < indexLimit) : FitsSum n := by unfold FitsSum; omega

theorem fitsSums_zero : FitsSums {} := ⟨fitsSum_zero, fitsSum_zero, fitsSum_zero, fitsSum_zero⟩

theorem addWord_sub {a : Int} {n : Nat} (h : n < indexLimit) : addWord a (n - a) = .ok (n : Int) := by
  have : a + (n - a) = n := by omega
  unfold addWord
  rw [this, if_pos]
  unfold wordLimit indexLimit at *
  omega

theorem toIndex_natCast (field : Field) {n : Nat} (h : n < indexLimit) : toIndex field n = .ok n := by
  unfold toIndex
  rw [if_pos (by omega), Int.toNat_natCast]

theorem sourceIndex_natCast {extent : Extent} {n : Nat} (h : n < indexLimit) (hs : n < extent.sources) :
    sourceIndex extent n = .ok n := by
  rw [sourceIndex, toIndex_natCast _ h, ok_bind, if_pos hs]

theorem nameIndex_natCast {extent : Extent} {n : Nat} (h : n < indexLimit) (hs : n < extent.names) :
    nameIndex extent n = .ok n := by
  rw [nameIndex, toIndex_natCast _ h, ok_bind, if_pos hs]

theorem natAbs_sub_lt {a : Int} {n : Nat} (ha : FitsSum a) (h : n < indexLimit) : ((n : Int) - a).natAbs < 2 ^ 63 := by
  unfold FitsSum indexLimit at *
  omega

/-! ## One segment -/

theorem segmentNumbers_fits {sums : Sums} (hs : FitsSums sums) {extent : Extent} {o : Option Origin}
    (ho : ∀ x ∈ o, FitsOrigin extent x) :
    FitsSums (segmentNumbers sums o).2 ∧ ∀ v ∈ (segmentNumbers sums o).1, v.natAbs < 2 ^ 63 := by
  cases o with
  | none => exact ⟨hs, by simp [segmentNumbers]⟩
  | some o =>
    obtain ⟨h1, h2, ⟨h3, h4⟩, h5⟩ := ho o rfl
    have base : ∀ v ∈ [(o.source : Int) - sums.source, o.position.line - sums.line, o.position.column - sums.column],
        v.natAbs < 2 ^ 63 := by
      simp only [List.mem_cons, List.not_mem_nil, or_false, forall_eq_or_imp, forall_eq]
      exact ⟨natAbs_sub_lt hs.source h2, natAbs_sub_lt hs.line h3, natAbs_sub_lt hs.column h4⟩
    obtain ⟨source, place, name⟩ := o
    cases name with
    | none => exact ⟨⟨fitsSum_natCast h2, fitsSum_natCast h3, fitsSum_natCast h4, hs.name⟩, base⟩
    | some n =>
      have hn := (h5 n rfl).2
      refine ⟨⟨fitsSum_natCast h2, fitsSum_natCast h3, fitsSum_natCast h4, fitsSum_natCast hn⟩, fun v hv => ?_⟩
      rcases List.mem_append.1 hv with hv | hv
      · exact base v hv
      · rw [List.mem_singleton] at hv
        exact hv ▸ natAbs_sub_lt hs.name hn

/-- the text of a segment behind sums and a generated column -/
def segmentText (sums : Sums) (column : Int) (s : Segment) : List Char :=
  Vlq.encodeAll ((s.generated.column - column) :: (segmentNumbers sums s.origin).1)

theorem decode_segmentText {extent : Extent} {s : Segment} (h : FitsSegment extent s) {sums : Sums} (hs : FitsSums sums)
    {column : Int} (hc : FitsSum column) :
    Vlq.decode (segmentText sums column s) =
      .ok ((s.generated.column - column) :: (segmentNumbers sums s.origin).1) := by
  refine Vlq.decode_encodeAll fun v hv => ?_
  rcases List.mem_cons.1 hv with rfl | hv
  · exact natAbs_sub_lt hc h.generated.2
  · exact (segmentNumbers_fits hs h.origin).2 v hv

theorem readOrigin_none {extent : Extent} {src : Nat} {p : Position} (h : FitsOrigin extent ⟨src, p, none⟩)
    (sums : Sums) :
    readOrigin extent sums (src - sums.source) (p.line - sums.line) (p.column - sums.column) none =
      .ok (⟨src, p, none⟩, ⟨src, p.line, p.column, sums.name⟩) := by
  obtain ⟨h1, h2, ⟨h3, h4⟩, -⟩ := h
  simp only [readOrigin, addWord_sub h2, addWord_sub h3, addWord_sub h4, sourceIndex_natCast h2 h1,
    toIndex_natCast _ h3, toIndex_natCast _ h4, ok_bind]

theorem readOrigin_some {extent : Extent} {src n : Nat} {p : Position} (h : FitsOrigin extent ⟨src, p, some n⟩)
    (sums : Sums) :
    readOrigin extent sums (src - sums.source) (p.line - sums.line) (p.column - sums.column) (some (n - sums.name)) =
      .ok (⟨src, p, some n⟩, ⟨src, p.line, p.column, n⟩) := by
  obtain ⟨h1, h2, ⟨h3, h4⟩, h5⟩ := h
  obtain ⟨h6, h7⟩ := h5 n rfl
  simp only [readOrigin, addWord_sub h2, addWord_sub h3, addWord_sub h4, addWord_sub h7, sourceIndex_natCast h2 h1,
    nameIndex_natCast h7 h6, toIndex_natCast _ h3, toIndex_natCast _ h4, ok_bind]

/-- **A written segment is read back**, and leaves the reader with the writer's sums. -/
theorem readSegment_segmentText {extent : Extent} {s : Segment} (h : FitsSegment extent s) {sums : Sums}
    (hs : FitsSums sums) {column : Int} (hc : FitsSum column) :
    readSegment extent s.generated.line ⟨sums, column⟩ (segmentText sums column s) =
      .ok (s, ⟨(segmentNumbers sums s.origin).2, s.generated.column⟩) := by
  have hg := addWord_sub (a := column) h.generated.2
  have hi := toIndex_natCast .generatedColumn h.generated.2
  rw [readSegment, decode_segmentText h hs hc]
  obtain ⟨place, origin⟩ := s
  simp only [Except.mapError, ok_bind, List.headD_cons, hg]
  cases origin with
  | none => simp only [segmentNumbers, ok_bind, hi]
  | some o =>
    obtain ⟨src, p, name⟩ := o
    cases name with
    | none => simp only [segmentNumbers, originNumbers, readOrigin_none (h.origin _ rfl), ok_bind, hi]
    | some n =>
      simp only [segmentNumbers, originNumbers, List.cons_append, List.nil_append, readOrigin_some (h.origin _ rfl),
        ok_bind, hi]

/-! ## One line -/

/-- the segment texts of a line -/
def lineParts (text : List Char) : List (List Char) := (text.splitOn ',').filter (· ≠ [])

/-- the rest of a line behind a segment -/
def EndsSegment (text : List Char) : Prop := text = [] ∨ ∃ more, text = ',' :: more

theorem lineParts_nil : lineParts [] = [] := rfl

theorem lineParts_comma (text : List Char) : lineParts (',' :: text) = lineParts text := by
  simp [lineParts, List.splitOn_cons_eq_if_modifyHead]

theorem lineParts_append {seg text : List Char} (hne : seg ≠ []) (hd : Vlq.NoDivider seg) (ht : EndsSegment text) :
    lineParts (seg ++ text) = seg :: lineParts text := by
  have hseg : ',' ∉ seg := fun h => (hd ',' h).1 rfl
  rcases ht with rfl | ⟨more, rfl⟩
  · rw [List.append_nil, lineParts_nil, lineParts, List.splitOn_eq_singleton hseg]
    simp [hne]
  · rw [lineParts_comma, lineParts, List.splitOn_append_cons_self, List.splitOn_eq_singleton hseg]
    simp [hne, lineParts]

theorem segmentText_ne_nil (sums : Sums) (column : Int) (s : Segment) : segmentText sums column s ≠ [] := by
  simp [segmentText, Vlq.encodeAll, Vlq.encode_ne_nil]

theorem splitOn_append_of_notMem {d : Char} {pre : List Char} (h : d ∉ pre) (text : List Char) :
    (pre ++ text).splitOn d = (text.splitOn d).modifyHead (pre ++ ·) := by
  obtain ⟨head, tail, hs⟩ := List.exists_cons_of_ne_nil (List.splitOn_ne_nil d text)
  induction pre with
  | nil => simp [hs]
  | cons c pre ih =>
    have hc : (c == d) = false := by
      rw [beq_eq_false_iff_ne]
      rintro rfl
      exact h List.mem_cons_self
    rw [List.cons_append, List.splitOn_cons_eq_if_modifyHead, hc, ih fun hm => h (List.mem_cons_of_mem _ hm), hs]
    simp

theorem writeSegments_here {w : Writer} {s : Segment} (h : w.line = s.generated.line) (ss : List Segment) :
    writeSegments w (s :: ss) = (if w.first then [] else [',']) ++ segmentText w.sums w.column s ++
      writeSegments ⟨w.line, false, s.generated.column, (segmentNumbers w.sums s.origin).2⟩ ss := by
  simp [writeSegments, Writer.toLine, h, segmentText]

theorem writeSegments_below {w : Writer} {s : Segment} (h : w.line < s.generated.line) (ss : List Segment) :
    writeSegments w (s :: ss) = ';' :: writeSegments ⟨w.line + 1, true, 0, w.sums⟩ (s :: ss) := by
  have hrep :
      List.replicate (s.generated.line - w.line) ';' = ';' :: List.replicate (s.generated.line - (w.line + 1)) ';' := by
    rw [← List.replicate_succ]
    congr 1
    omega
  rcases Nat.lt_or_ge (w.line + 1) s.generated.line with h1 | h1
  · simp [writeSegments, Writer.toLine, h, h1, hrep]
  · have e : w.line + 1 = s.generated.line := by omega
    simp [writeSegments, Writer.toLine, h, e, hrep]

/-! ## All lines -/

/-- a reader with the writer's sums gets the segments back: those of the current line, then those of the
lines behind it -/
def Reads (extent : Extent) (w : Writer) (ss : List Segment) : Prop :=
  ∃ head tail here later sums, (writeSegments w ss).splitOn ';' = head :: tail ∧ (w.first = false → EndsSegment head) ∧
    readLine extent w.line ⟨w.sums, w.column⟩ (lineParts head) = .ok (here, sums) ∧
    readLines extent (w.line + 1) sums tail = .ok later ∧
    ss = here ++ later

theorem reads_nil (extent : Extent) (w : Writer) : Reads extent w [] :=
  ⟨[], [], [], [], w.sums, rfl, fun _ => Or.inl rfl, rfl, rfl, rfl⟩

theorem Reads.segment {extent : Extent} {w : Writer} {s : Segment} {ss : List Segment} (hl : w.line = s.generated.line)
    (hs : FitsSegment extent s) (hsums : FitsSums w.sums) (hc : FitsSum w.column)
    (h : Reads extent ⟨w.line, false, s.generated.column, (segmentNumbers w.sums s.origin).2⟩ ss) :
    Reads extent w (s :: ss) := by
  obtain ⟨head, tail, here, later, sums, hsplit, hend, hline, hlines, rfl⟩ := h
  have hd := Vlq.encodeAll_noDivider ((s.generated.column - w.column) :: (segmentNumbers w.sums s.origin).1)
  have hparts := lineParts_append (segmentText_ne_nil w.sums w.column s) hd (hend rfl)
  have hread := readSegment_segmentText hs hsums hc
  have hlead : ';' ∉ (if w.first then [] else [',']) ++ segmentText w.sums w.column s := by
    intro hm
    rcases List.mem_append.1 hm with hm | hm
    · split_ifs at hm <;> simp at hm
    · exact (hd ';' hm).2 rfl
  refine ⟨(if w.first then [] else [',']) ++ segmentText w.sums w.column s ++ head, tail, s :: here, later, sums, ?_,
    ?_, ?_, hlines, rfl⟩
  · rw [writeSegments_here hl, splitOn_append_of_notMem hlead, hsplit, List.modifyHead_cons]
  · intro hf
    exact Or.inr ⟨segmentText w.sums w.column s ++ head, by simp [hf]⟩
  · have e : lineParts ((if w.first then [] else [',']) ++ segmentText w.sums w.column s ++ head) =
        segmentText w.sums w.column s :: lineParts head := by
      split_ifs
      · exact hparts
      · rw [List.append_assoc, List.singleton_append, lineParts_comma, hparts]
    rw [e, readLine, hl, hread, ok_bind]
    rw [hl] at hline
    simp only [hline, ok_bind]

theorem Reads.below {extent : Extent} {w : Writer} {s : Segment} {ss : List Segment} (hl : w.line < s.generated.line)
    (hlimit : s.generated.line < indexLimit) (h : Reads extent ⟨w.line + 1, true, 0, w.sums⟩ (s :: ss)) :
    Reads extent w (s :: ss) := by
  obtain ⟨head, tail, here, later, sums, hsplit, -, hline, hlines, e⟩ := h
  refine ⟨[], head :: tail, [], s :: ss, w.sums, ?_, fun _ => Or.inl rfl, rfl, ?_, rfl⟩
  · rw [writeSegments_below hl, List.splitOn_cons_eq_if_modifyHead, if_pos (by rfl), hsplit]
  · rw [readLines, if_neg (by omega)]
    rw [lineParts] at hline
    simp only [hline, hlines, ok_bind, e]

/-- **A writer's segments are read back** from wherever it stands. -/
theorem reads_of_sorted {extent : Extent} {ss : List Segment} :
    ∀ {w : Writer}, FitsSums w.sums → FitsSum w.column → (∀ s ∈ ss, FitsSegment extent s) →
    (∀ s ∈ ss, w.line ≤ s.generated.line) → Segment.Sorted ss → Reads extent w ss := by
  induction ss with
  | nil => intro w _ _ _ _ _; exact reads_nil extent w
  | cons s ss ih =>
    intro w hsums hc hfits hle hsorted
    have hs := hfits s List.mem_cons_self
    rw [Segment.Sorted, List.pairwise_cons] at hsorted
    -- the lines up to that of the first segment, then the segment itself
    induction hd : s.generated.line - w.line generalizing w with
    | zero =>
      have hl : w.line = s.generated.line := by have := hle s List.mem_cons_self; omega
      refine Reads.segment hl hs hsums hc (ih (segmentNumbers_fits hsums hs.origin).1 (fitsSum_natCast hs.generated.2)
        (fun t ht => hfits t (List.mem_cons_of_mem _ ht)) (fun t ht => hle t (List.mem_cons_of_mem _ ht)) hsorted.2)
    | succ d ihd =>
      refine Reads.below (by omega) hs.generated.1 (ihd hsums fitsSum_zero (fun t ht => ?_) (by simp only; omega))
      have hst : s.generated.line ≤ t.generated.line := by
        rcases List.mem_cons.1 ht with rfl | ht
        · exact Nat.le_refl _
        · have := Position.le_iff.1 (hsorted.1 t ht)
          omega
      simp only
      omega

/-- **Sorted segments are read back from their text.** -/
theorem decode_encode {extent : Extent} {ss : List Segment} (hfits : ∀ s ∈ ss, FitsSegment extent s)
    (hsorted : Segment.Sorted ss) :
    decode extent (encode ss) = .ok ss := by
  obtain ⟨head, tail, here, later, sums, hsplit, -, hline, hlines, e⟩ :=
    reads_of_sorted (w := {}) fitsSums_zero fitsSum_zero hfits (fun _ _ => Nat.zero_le _) hsorted
  have hread : readLines extent 0 {} ((writeSegments {} ss).splitOn ';') = .ok ss := by
    rw [hsplit, readLines, if_neg (by decide)]
    rw [lineParts] at hline
    simp only at hline hlines
    simp only [hline, hlines, ok_bind, e]
  rw [encode, Segment.sort_of_sorted hsorted, decode, hread, Except.map, Segment.sort_of_sorted hsorted]

/-! ## What a reader reads -/

/-- the index of the name a fifth number gives, and the sum behind it -/
def readName (ext : Extent) (sum : Int) : Option Int → Except Fault (Option Nat × Int)
  | none => .ok (none, sum)
  | some d => do
    let name ← addWord sum d
    let i ← nameIndex ext name
    .ok (some i, name)

theorem readOrigin_eq (ext : Extent) (sums : Sums) (ds dl dc : Int) (dn : Option Int) :
    readOrigin ext sums ds dl dc dn = (do
      let source ← addWord sums.source ds
      let line ← addWord sums.line dl
      let column ← addWord sums.column dc
      let si ← sourceIndex ext source
      let named ← readName ext sums.name dn
      let li ← toIndex .line line
      let ci ← toIndex .column column
      .ok (⟨si, ⟨li, ci⟩, named.1⟩, ⟨source, line, column, named.2⟩)) := by
  unfold readOrigin
  cases dn with
  | none => rfl
  | some d => simp only [readName, bind_assoc, ok_bind]

/-- what the numbers of a segment give: no origin, or one without a name, or one with a name -/
def readFields (ext : Extent) (sums : Sums) (seg : List Char) : List Int → Except Fault (Option Origin × Sums)
  | [_] => .ok (none, sums)
  | [_, ds, dl, dc] => (readOrigin ext sums ds dl dc none).map fun (o, sums) => (some o, sums)
  | [_, ds, dl, dc, dn] => (readOrigin ext sums ds dl dc (some dn)).map fun (o, sums) => (some o, sums)
  | vs => .error (.fieldCount seg vs.length)

theorem readSegment_eq (ext : Extent) (line : Nat) (r : Reader) (seg : List Char) :
    readSegment ext line r seg = (do
      let values ← (Vlq.decode seg).mapError fun e => Fault.digits e seg
      let column ← addWord r.column (values.headD 0)
      let read ← readFields ext r.sums seg values
      let ci ← toIndex .generatedColumn column
      .ok (⟨⟨line, ci⟩, read.1⟩, ⟨read.2, column⟩)) := by
  unfold readSegment
  congr 1
  funext values
  congr 1
  funext column
  match values with
  | [] => rfl
  | [_] => rfl
  | [_, _] => rfl
  | [_, _, _] => rfl
  | [_, ds, dl, dc] =>
    simp only [readFields]
    cases readOrigin ext r.sums ds dl dc none <;> rfl
  | [_, ds, dl, dc, dn] =>
    simp only [readFields]
    cases readOrigin ext r.sums ds dl dc (some dn) <;> rfl
  | _ :: _ :: _ :: _ :: _ :: _ :: _ => rfl

/-- an origin that is read: each number is added to its sum, and the sum behind it is looked at then -/
structure ReadsOrigin (ext : Extent) (sums : Sums) (ds dl dc : Int) (dn : Option Int) (o : Origin) (behind : Sums) :
    Prop where
  addSource : addWord sums.source ds = .ok behind.source
  addLine : addWord sums.line dl = .ok behind.line
  addColumn : addWord sums.column dc = .ok behind.column
  source : sourceIndex ext behind.source = .ok o.source
  name : readName ext sums.name dn = .ok (o.name, behind.name)
  line : toIndex .line behind.line = .ok o.position.line
  column : toIndex .column behind.column = .ok o.position.column

theorem readsOrigin {ext : Extent} {sums behind : Sums} {ds dl dc : Int} {dn : Option Int} {o : Origin}
    (h : readOrigin ext sums ds dl dc dn = .ok (o, behind)) : ReadsOrigin ext sums ds dl dc dn o behind := by
  rw [readOrigin_eq] at h
  obtain ⟨source, hsource, h⟩ := bind_eq_ok h
  obtain ⟨line, hline, h⟩ := bind_eq_ok h
  obtain ⟨column, hcolumn, h⟩ := bind_eq_ok h
  obtain ⟨si, hsi, h⟩ := bind_eq_ok h
  obtain ⟨⟨ni, name⟩, hname, h⟩ := bind_eq_ok h
  obtain ⟨li, hli, h⟩ := bind_eq_ok h
  obtain ⟨ci, hci, h⟩ := bind_eq_ok h
  cases h
  exact ⟨hsource, hline, hcolumn, hsi, hname, hli, hci⟩

theorem readFields_cases {ext : Extent} {sums sums' : Sums} {seg : List Char} {values : List Int}
    {origin : Option Origin} (h : readFields ext sums seg values = .ok (origin, sums')) :
    values.length = 1 ∧ origin = none ∧ sums' = sums ∨
      ∃ dg ds dl dc dn o, values = dg :: ds :: dl :: dc :: dn.toList ∧ origin = some o ∧
        readOrigin ext sums ds dl dc dn = .ok (o, sums') := by
  have read : ∀ {dg ds dl dc} (dn : Option Int),
      (readOrigin ext sums ds dl dc dn).map (fun (o, sums) => (some o, sums)) = .ok (origin, sums') →
      ∃ dg' ds' dl' dc' dn' o, dg :: ds :: dl :: dc :: dn.toList = dg' :: ds' :: dl' :: dc' :: dn'.toList ∧
        origin = some o ∧ readOrigin ext sums ds' dl' dc' dn' = .ok (o, sums') := by
    intro dg ds dl dc dn h
    cases ho : readOrigin ext sums ds dl dc dn with
    | error e =>
      rw [ho] at h
      cases h
    | ok found =>
      rw [ho] at h
      cases h
      exact ⟨dg, ds, dl, dc, dn, found.1, rfl, rfl, ho⟩
  unfold readFields at h
  split at h
  · cases h
    exact Or.inl ⟨rfl, rfl, rfl⟩
  · exact Or.inr (read none h)
  · exact Or.inr (read (some _) h)
  · cases h

/-- a segment that is read of these numbers, and the reader behind it -/
structure ReadsSegment (ext : Extent) (line : Nat) (r : Reader) (seg : List Char) (values : List Int) (s : Segment)
    (behind : Reader) : Prop where
  numbers : Vlq.decode seg = .ok values
  addColumn : addWord r.column (values.headD 0) = .ok behind.column
  origin : readFields ext r.sums seg values = .ok (s.origin, behind.sums)
  line : s.generated.line = line
  column : toIndex .generatedColumn behind.column = .ok s.generated.column

theorem exists_readsSegment {ext : Extent} {line : Nat} {r behind : Reader} {seg : List Char} {s : Segment}
    (h : readSegment ext line r seg = .ok (s, behind)) : ∃ values, ReadsSegment ext line r seg values s behind := by
  rw [readSegment_eq] at h
  obtain ⟨values, hvalues, h⟩ := bind_eq_ok h
  obtain ⟨column, hadd, h⟩ := bind_eq_ok h
  obtain ⟨⟨origin, sums⟩, hread, h⟩ := bind_eq_ok h
  obtain ⟨ci, hci, h⟩ := bind_eq_ok h
  cases h
  refine ⟨values, ?_, hadd, hread, rfl, hci⟩
  cases hdecode : Vlq.decode seg with
  | error e =>
    rw [hdecode] at hvalues
    cases hvalues
  | ok vs =>
    rw [hdecode] at hvalues
    cases hvalues
    rfl

/-! ## What is read fits -/

theorem toIndex_lt {field : Field} {v : Int} {n : Nat} (h : toIndex field v = .ok n) : n < indexLimit := by
  unfold toIndex at h
  split_ifs at h with hv
  cases h
  omega

theorem sourceIndex_lt {extent : Extent} {v : Int} {n : Nat} (h : sourceIndex extent v = .ok n) :
    n < extent.sources ∧ n < indexLimit := by
  obtain ⟨i, hi, h⟩ := bind_eq_ok h
  split_ifs at h with hlt
  cases h
  exact ⟨hlt, toIndex_lt hi⟩

theorem nameIndex_lt {extent : Extent} {v : Int} {n : Nat} (h : nameIndex extent v = .ok n) :
    n < extent.names ∧ n < indexLimit := by
  obtain ⟨i, hi, h⟩ := bind_eq_ok h
  split_ifs at h with hlt
  cases h
  exact ⟨hlt, toIndex_lt hi⟩

theorem readName_lt {extent : Extent} {sum v : Int} {dn : Option Int} {n? : Option Nat}
    (h : readName extent sum dn = .ok (n?, v)) :
    ∀ n ∈ n?, n < extent.names ∧ n < indexLimit := by
  intro n hn
  cases dn with
  | none =>
    cases h
    cases hn
  | some d =>
    obtain ⟨name, -, h⟩ := bind_eq_ok h
    obtain ⟨i, hi, h⟩ := bind_eq_ok h
    cases h
    cases hn
    exact nameIndex_lt hi

theorem readOrigin_fits {extent : Extent} {sums sums' : Sums} {ds dl dc : Int} {dn : Option Int} {o : Origin}
    (h : readOrigin extent sums ds dl dc dn = .ok (o, sums')) : FitsOrigin extent o := by
  have hr := readsOrigin h
  exact ⟨(sourceIndex_lt hr.source).1, (sourceIndex_lt hr.source).2, ⟨toIndex_lt hr.line, toIndex_lt hr.column⟩,
    readName_lt hr.name⟩

theorem readSegment_fits {extent : Extent} {line : Nat} (hl : line < indexLimit) {r r' : Reader} {seg : List Char}
    {s : Segment} (h : readSegment extent line r seg = .ok (s, r')) : FitsSegment extent s := by
  obtain ⟨values, hr⟩ := exists_readsSegment h
  refine ⟨⟨hr.line ▸ hl, toIndex_lt hr.column⟩, fun o ho => ?_⟩
  obtain ⟨-, hnone, -⟩ | ⟨_, _, _, _, _, found, -, hsome, hread⟩ := readFields_cases hr.origin
  · rw [hnone] at ho
    cases ho
  · rw [hsome] at ho
    cases ho
    exact readOrigin_fits hread

theorem readLine_fits {extent : Extent} {line : Nat} (hl : line < indexLimit) {parts : List (List Char)} :
    ∀ {r : Reader} {ss : List Segment} {sums : Sums}, readLine extent line r parts = .ok (ss, sums) →
      ∀ s ∈ ss, FitsSegment extent s := by
  induction parts with
  | nil => intro r ss sums h; cases h; simp
  | cons seg parts ih =>
    intro r ss sums h
    obtain ⟨⟨t, r'⟩, ht, h⟩ := bind_eq_ok h
    obtain ⟨⟨ts, sums'⟩, hts, h⟩ := bind_eq_ok h
    cases h
    intro s hs
    rcases List.mem_cons.1 hs with rfl | hs
    · exact readSegment_fits hl ht
    · exact ih hts s hs

theorem readLines_fits {extent : Extent} {texts : List (List Char)} :
    ∀ {line : Nat} {sums : Sums} {ss : List Segment}, readLines extent line sums texts = .ok ss →
      ∀ s ∈ ss, FitsSegment extent s := by
  induction texts with
  | nil => intro line sums ss h; cases h; simp
  | cons text texts ih =>
    intro line sums ss h
    rw [readLines] at h
    split_ifs at h with hl
    obtain ⟨⟨here, sums'⟩, hhere, h⟩ := bind_eq_ok h
    obtain ⟨later, hlater, h⟩ := bind_eq_ok h
    cases h
    intro s hs
    rcases List.mem_append.1 hs with hs | hs
    · exact readLine_fits (Nat.lt_of_not_le hl) hhere s hs
    · exact ih hlater s hs

/-- **What is read is sorted, fits 32 bits and stays inside the lists of sources and names.** -/
theorem decode_fits {extent : Extent} {text : List Char} {ss : List Segment} (h : decode extent text = .ok ss) :
    (∀ s ∈ ss, FitsSegment extent s) ∧ Segment.Sorted ss := by
  unfold decode at h
  cases hr : readLines extent 0 {} (text.splitOn ';') with
  | error e => rw [hr] at h; cases h
  | ok segments =>
    rw [hr] at h
    cases h
    exact ⟨fun s hs => readLines_fits hr s (Segment.mem_sort.1 hs), Segment.sorted_sort segments⟩

end Mappings

end ClosurePipeline
