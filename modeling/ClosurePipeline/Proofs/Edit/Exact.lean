/-
Edit scripts are exact. What an edit script means is said without cutting a text into pieces, and the pieces are shown
to agree.

- `ByStart`, `accepted`: edits are taken by start and then in the order given, and one is dropped exactly if it starts
  before the end of the last one accepted, is inverted or ends beyond the text;
- `spliced`: a text with edits applied that come in order;
- `InPlace`: edits in order at character boundaries, by the text between them; `inPlace_acceptedFrom`: the accepted
  edits are in place;
- `textOf_cut`, `exists_kept`: for edits in place the pieces make the spliced text, and a character outside of all edits
  stands in a kept piece;
- `run_exact`: the result, with the fragment: generated places strictly increase, and the nearest pair in front of a
  character that is kept is as far from it as the pair's origin is from where the character stood;
- `Orderly`: edits given in order and apart; all of them are accepted, and the text is the spliced one
  (`Orderly.text_run`).
-/
import Mathlib.Tactic
import ClosurePipeline.Proofs.Edit.Places
import ClosurePipeline.Proofs.Token.Tiling

namespace ClosurePipeline

theorem Text.byteLength_eq_zero {cs : List Char} (h : byteLength cs = 0) : cs = [] := by
  cases cs with
  | nil => rfl
  | cons c cs =>
    have hpos := c.utf8Size_pos
    rw [byteLength_cons] at h
    omega

/-- a character of a text that two make is in the first or in the second -/
theorem split_of_append_eq {xs ys a b : List Char} {c : Char} (h : xs ++ ys = a ++ c :: b) :
    (∃ m, xs = a ++ c :: m ∧ b = m ++ ys) ∨ ∃ m, a = xs ++ m ∧ ys = m ++ c :: b := by
  rcases List.append_eq_append_iff.1 h with ⟨m, rfl, hys⟩ | ⟨m, rfl, hm⟩
  · exact Or.inr ⟨m, rfl, hys⟩
  · rcases List.cons_eq_append_iff.1 hm with ⟨rfl, rfl⟩ | ⟨m, rfl, rfl⟩
    · exact Or.inr ⟨[], by simp, rfl⟩
    · exact Or.inl ⟨m, rfl, rfl⟩

/-- `q` is the nearest pair of a fragment on the line of `p`, not behind `p` -/
structure Fragment.Nearest (f : Fragment) (p : Position) (q : Position × Position) : Prop where
  mem : q ∈ f.pairs
  line : q.1.line = p.line
  column : q.1.column ≤ p.column
  nearest : ∀ r ∈ f.pairs, r.1.line = p.line → r.1.column ≤ p.column → r.1.column ≤ q.1.column

/-- the last pair up to a place is the nearest, if it is on the line of the place -/
theorem Fragment.nearest_of_upTo {f : Fragment} {p : Position} {q : Position × Position}
    {init : List (Position × Position)} (h : f.upTo p = init ++ [q]) (hinit : ∀ r ∈ init, ¬ q.1.le r.1 = true)
    (hline : q.1.line = p.line) : f.Nearest p q := by
  have hmem : ∀ r, r ∈ f.pairs ∧ r.1.le p = true ↔ r ∈ init ∨ r = q := by
    intro r
    have := congrArg (r ∈ ·) h
    simpa only [upTo, List.mem_filter, List.mem_append, List.mem_singleton, eq_iff_iff] using this
  obtain ⟨hq, hqp⟩ := (hmem q).2 (Or.inr rfl)
  rw [Position.le_iff] at hqp
  refine ⟨hq, hline, by omega, fun r hr hrline hrcolumn => ?_⟩
  rcases (hmem r).1 ⟨hr, Position.le_iff.2 (Or.inr ⟨hrline, hrcolumn⟩)⟩ with hr | rfl
  · have hbefore := hinit r hr
    rw [Position.le_iff] at hbefore
    omega
  · exact Nat.le_refl _

namespace EditScript

open Lexer (OnBoundary)

/-! ## What an edit script means -/

/-- edits by start, and in the order given where starts are equal -/
structure ByStart (edits order : List Edit) : Prop where
  perm : order.Perm edits
  ordered : order.Pairwise fun a b => a.start ≤ b.start
  stable : ∀ n, order.filter (fun e => e.start = n) = edits.filter fun e => e.start = n

/-- the byte up to which accepted edits reach -/
def reached (taken : List Edit) : Nat := (taken.getLast?.map Edit.stop).getD 0

/-- an edit is dropped if it starts before the end of the last one accepted, is inverted or ends beyond the text -/
def accept (stop : Nat) (taken : List Edit) (e : Edit) : List Edit :=
  if e.start < reached taken ∨ e.stop < e.start ∨ stop < e.stop then taken else taken ++ [e]

/-- the edits of a text that are not dropped -/
def accepted (source : List Char) (order : List Edit) : List Edit := order.foldl (accept (Text.byteLength source)) []

/-- the text from byte `pos` on with edits applied that come in order -/
def spliced (source : List Char) (pos : Nat) : List Edit → List Char
  | [] => Text.dropBytes pos source
  | e :: es => Text.slice source pos e.start ++ (e.text ++ spliced source e.stop es)

/-- offsets that lie in the text are on character boundaries -/
def OnBoundaries (source : List Char) (edits : List Edit) : Prop :=
  ∀ e ∈ edits, (e.start ≤ Text.byteLength source → OnBoundary source e.start) ∧
    (e.stop ≤ Text.byteLength source → OnBoundary source e.stop)

theorem byStart_sort (edits : List Edit) : ByStart edits (sort edits) := by
  have htrans : ∀ a b c : Edit, decide (a.start ≤ b.start) = true → decide (b.start ≤ c.start) = true →
      decide (a.start ≤ c.start) = true := by
    intro a b c hab hbc
    rw [decide_eq_true_eq] at hab hbc ⊢
    exact hab.trans hbc
  have htotal : ∀ a b : Edit, (decide (a.start ≤ b.start) || decide (b.start ≤ a.start)) = true := by
    intro a b
    rw [Bool.or_eq_true, decide_eq_true_eq, decide_eq_true_eq]
    exact Nat.le_total _ _
  refine ⟨List.mergeSort_perm _ _, ?_, fun n => filter_mergeSort htrans htotal (fun a b ha hb => ?_) edits⟩
  · exact (List.pairwise_mergeSort htrans htotal edits).imp fun h => of_decide_eq_true h
  · rw [decide_eq_true_eq] at ha hb ⊢
    rw [ha, hb]

/-- lists in order are equal if they have the same edits for each start, in the same order -/
theorem eq_of_filter_eq {order : List Edit} (h : order.Pairwise fun a b => a.start ≤ b.start) :
    ∀ {other : List Edit}, other.Pairwise (fun a b => a.start ≤ b.start) →
      (∀ n, order.filter (fun e => e.start = n) = other.filter fun e => e.start = n) → order = other := by
  have hmem : ∀ {xs ys : List Edit}, (∀ n, xs.filter (fun e => e.start = n) = ys.filter fun e => e.start = n) →
      ∀ e ∈ xs, e ∈ ys := by
    intro xs ys hsame e he
    have : e ∈ ys.filter fun d => d.start = e.start := hsame e.start ▸ List.mem_filter.2 ⟨he, by simp⟩
    exact (List.mem_filter.1 this).1
  induction h with
  | nil =>
    intro other _ hsame
    exact (List.eq_nil_iff_forall_not_mem.2 fun e he => List.not_mem_nil (hmem (fun n => (hsame n).symm) e he)).symm
  | @cons e order hle _ ih =>
    intro other hother hsame
    cases hother with
    | nil => exact absurd (hmem hsame e List.mem_cons_self) List.not_mem_nil
    | @cons e' other hle' hother =>
      -- both first edits have the least start
      have hfirst : e.start = e'.start := by
        refine Nat.le_antisymm ?_ ?_
        · rcases List.mem_cons.1 (hmem (fun n => (hsame n).symm) e' List.mem_cons_self) with he | he
          · rw [he]
          · exact hle e' he
        · rcases List.mem_cons.1 (hmem hsame e List.mem_cons_self) with he | he
          · rw [he]
          · exact hle' e he
      have hhere := hsame e.start
      rw [List.filter_cons_of_pos (by simp), List.filter_cons_of_pos (by simp [hfirst])] at hhere
      obtain rfl : e = e' := (List.cons.inj hhere).1
      refine congrArg (e :: ·) (ih hother fun n => ?_)
      have hn := hsame n
      by_cases he : e.start = n
      · rw [List.filter_cons_of_pos (by simp [he]), List.filter_cons_of_pos (by simp [he])] at hn
        exact (List.cons.inj hn).2
      · rwa [List.filter_cons_of_neg (by simp [he]), List.filter_cons_of_neg (by simp [he])] at hn

/-- edits have one order by start -/
theorem ByStart.unique {edits order other : List Edit} (h : ByStart edits order) (h' : ByStart edits other) :
    order = other :=
  eq_of_filter_eq h.ordered h'.ordered fun n => (h.stable n).trans (h'.stable n).symm

/-! ## Edits in place -/

/-- edits of `rest`, which stands behind `before`, in order and at character boundaries -/
inductive InPlace : List Char → List Char → List Edit → Prop where
  | nil (before rest : List Char) : InPlace before rest []
  | cons {before back : List Char} (front old new : List Char) {es : List Edit}
      (h : InPlace (before ++ (front ++ old)) back es) :
      InPlace before (front ++ (old ++ back))
        (⟨Text.byteLength (before ++ front), Text.byteLength (before ++ (front ++ old)), new⟩ :: es)

namespace InPlace

variable {before rest : List Char} {es : List Edit}

theorem le_start (h : InPlace before rest es) : ∀ e ∈ es, Text.byteLength before ≤ e.start ∧ e.start ≤ e.stop := by
  induction h with
  | nil before rest => simp
  | cons front old new h ih =>
    rw [List.forall_mem_cons]
    simp only [Text.byteLength_append] at ih ⊢
    exact ⟨by omega, fun e he => ⟨by have := ih e he; omega, (ih e he).2⟩⟩

/-- an edit in place keeps what is in front of it and goes on behind it -/
theorem cut_cons {before front old back new : List Char} {es : List Edit} :
    cut (Text.byteLength before) (front ++ (old ++ back))
      (⟨Text.byteLength (before ++ front), Text.byteLength (before ++ (front ++ old)), new⟩ :: es) =
      .kept front :: .replaced old new :: cut (Text.byteLength (before ++ (front ++ old))) back es := by
  rw [Text.byteLength_append before front, Text.byteLength_append before (front ++ old)]
  exact EditScript.cut_cons

theorem spliced_cons {before front old back new : List Char} {es : List Edit} :
    spliced (before ++ (front ++ (old ++ back))) (Text.byteLength before)
      (⟨Text.byteLength (before ++ front), Text.byteLength (before ++ (front ++ old)), new⟩ :: es) =
      front ++ (new ++ spliced (before ++ (front ++ old) ++ back) (Text.byteLength (before ++ (front ++ old))) es) := by
  have hslice : Text.slice (before ++ front ++ (old ++ back)) (Text.byteLength before)
      (Text.byteLength (before ++ front)) = front := by
    rw [Text.byteLength_append]
    exact Text.slice_append _ _ _
  have hsource : before ++ (front ++ (old ++ back)) = before ++ front ++ (old ++ back) := by simp
  have hsource' : before ++ front ++ (old ++ back) = before ++ (front ++ old) ++ back := by simp
  rw [spliced, hsource, hslice, hsource']

/-- **The pieces of edits in place make the spliced text.** -/
theorem textOf_cut (h : InPlace before rest es) :
    textOf (cut (Text.byteLength before) rest es) = spliced (before ++ rest) (Text.byteLength before) es := by
  induction h with
  | nil before rest => simp [cut, spliced, textOf, Piece.text, Text.dropBytes_byteLength_append]
  | cons front old new h ih => rw [cut_cons, spliced_cons, ← ih]; rfl

/-- **A character outside of all edits is kept,** with the text that is put in front of it. -/
theorem exists_kept (h : InPlace before rest es) : ∀ {a b : List Char} {c : Char}, rest = a ++ c :: b →
    (∀ e ∈ es, ¬ (e.start ≤ Text.byteLength (before ++ a) ∧ Text.byteLength (before ++ a) < e.stop)) →
    ∃ front x y behind, cut (Text.byteLength before) rest es = front ++ .kept (x ++ c :: y) :: behind ∧
      oldOf front ++ x = a ∧ textOf front ++ x =
        spliced (before ++ a) (Text.byteLength before) (es.filter fun e => e.stop ≤ Text.byteLength (before ++ a)) := by
  induction h with
  | nil before rest =>
    rintro a b c rfl -
    exact ⟨[], a, b, [], rfl, rfl, by simp [spliced, textOf, Text.dropBytes_byteLength_append]⟩
  | @cons before back front old new es h ih =>
    intro a b c hrest hout
    obtain ⟨hhere, hbehind⟩ := List.forall_mem_cons.1 hout
    have hc := c.utf8Size_pos
    rcases split_of_append_eq hrest with ⟨m, rfl, rfl⟩ | ⟨m, rfl, htail⟩
    · -- in front of the edit
      have hnone : List.filter (fun e => e.stop ≤ Text.byteLength (before ++ a))
          (⟨Text.byteLength (before ++ (a ++ c :: m)), Text.byteLength (before ++ ((a ++ c :: m) ++ old)), new⟩ ::
            es) = [] := by
        have hes := h.le_start
        simp only [List.filter_eq_nil_iff, List.forall_mem_cons, decide_eq_true_eq, Text.byteLength_append,
          Text.byteLength_cons] at hes ⊢
        exact ⟨by omega, fun e he => by have := hes e he; omega⟩
      refine ⟨[], a, m, .replaced old new :: cut (Text.byteLength (before ++ ((a ++ c :: m) ++ old))) back es,
        cut_cons, rfl, ?_⟩
      rw [hnone, spliced, Text.dropBytes_byteLength_append]
      rfl
    · rcases split_of_append_eq htail with ⟨m', rfl, rfl⟩ | ⟨m, rfl, hback⟩
      · -- in the edit
        simp only [Text.byteLength_append, Text.byteLength_cons] at hhere
        omega
      · -- behind the edit
        have hsource : before ++ (front ++ (old ++ m)) = before ++ (front ++ old) ++ m := by simp
        rw [hsource] at hbehind ⊢
        obtain ⟨pieces, x, y, behind, hcut, hold, htext⟩ := ih hback hbehind
        refine ⟨.kept front :: .replaced old new :: pieces, x, y, behind, ?_, ?_, ?_⟩
        · rw [cut_cons, hcut]
          rfl
        · rw [← hold]
          simp [oldOf, Piece.old]
        · rw [List.filter_cons_of_pos (by simp [Text.byteLength_append]), ← hsource, spliced_cons, hsource, ← htext]
          simp [textOf, Piece.text]

end InPlace

/-! ## Accepted edits -/

/-- the edits accepted from byte `pos` on -/
def acceptedFrom (stop : Nat) : Nat → List Edit → List Edit
  | _, [] => []
  | pos, e :: es => if fits pos stop e then e :: acceptedFrom stop e.stop es else acceptedFrom stop pos es

theorem foldl_accept (stop : Nat) (es : List Edit) :
    ∀ taken, es.foldl (accept stop) taken = taken ++ acceptedFrom stop (reached taken) es := by
  induction es with
  | nil => intro taken; exact (List.append_nil taken).symm
  | cons e es ih =>
    intro taken
    rw [List.foldl_cons, ih, acceptedFrom, accept]
    have hfits : (e.start < reached taken ∨ e.stop < e.start ∨ stop < e.stop) ↔
        ¬ fits (reached taken) stop e = true := by
      simp only [fits, Bool.and_eq_true, decide_eq_true_eq]
      omega
    by_cases h : fits (reached taken) stop e = true
    · rw [if_neg (fun hdrop => hfits.1 hdrop h), if_pos h, List.append_assoc]
      simp [reached]
    · rw [if_pos (hfits.2 h), if_neg h]

theorem accepted_eq (source : List Char) (order : List Edit) :
    accepted source order = acceptedFrom (Text.byteLength source) 0 order :=
  foldl_accept _ order []

/-- a boundary of a text that does not lie in front of a part of it cuts the part -/
theorem exists_split {before rest : List Char} {n : Nat} (h : OnBoundary (before ++ rest) n)
    (hn : Text.byteLength before ≤ n) :
    ∃ front back, rest = front ++ back ∧ n = Text.byteLength (before ++ front) := by
  obtain ⟨x, y, hsplit, rfl⟩ := h
  rcases List.append_eq_append_iff.1 hsplit with ⟨front, rfl, rfl⟩ | ⟨gone, rfl, rfl⟩
  · exact ⟨front, y, rfl, rfl⟩
  · have hgone : gone = [] := Text.byteLength_eq_zero (by rw [Text.byteLength_append] at hn; omega)
    exact ⟨[], rest, rfl, by simp [hgone]⟩

/-- **The accepted edits are in place,** and those dropped leave the pieces as they are. -/
theorem inPlace_acceptedFrom (es : List Edit) : ∀ {before rest : List Char}, OnBoundaries (before ++ rest) es →
    InPlace before rest (acceptedFrom (Text.byteLength (before ++ rest)) (Text.byteLength before) es) ∧
      cut (Text.byteLength before) rest es =
        cut (Text.byteLength before) rest
          (acceptedFrom (Text.byteLength (before ++ rest)) (Text.byteLength before) es) := by
  induction es with
  | nil => intro before rest _; exact ⟨.nil _ _, rfl⟩
  | cons e es ih =>
    intro before rest h
    obtain ⟨⟨hstart, hstop⟩, hes⟩ := List.forall_mem_cons.1 h
    rw [acceptedFrom]
    by_cases hfits : fits (Text.byteLength before) (Text.byteLength (before ++ rest)) e = true
    · rw [if_pos hfits]
      simp only [fits, Bool.and_eq_true, decide_eq_true_eq] at hfits
      obtain ⟨front, tail, rfl, hfront⟩ := exists_split (hstart (by omega)) (by omega)
      rw [← List.append_assoc] at hstop
      obtain ⟨old, back, rfl, hold⟩ := exists_split (hstop (by rw [List.append_assoc]; omega)) (by omega)
      rw [List.append_assoc] at hold
      have hsource : before ++ (front ++ (old ++ back)) = before ++ (front ++ old) ++ back := by simp
      obtain ⟨hplace, hcut⟩ := @ih (before ++ (front ++ old)) back (hsource ▸ hes)
      have hedit : e = ⟨Text.byteLength (before ++ front), Text.byteLength (before ++ (front ++ old)), e.text⟩ := by
        rw [← hfront, ← hold]
      rw [hsource, hold, hedit]
      exact ⟨.cons front old e.text hplace, by rw [InPlace.cut_cons, InPlace.cut_cons, hcut]⟩
    · rw [if_neg hfits, cut, ← Text.byteLength_append, if_neg hfits]
      exact ih hes

theorem inPlace_accepted {source : List Char} {edits : List Edit} (h : OnBoundaries source edits) :
    InPlace [] source (accepted source (sort edits)) ∧
    pieces source edits = cut 0 source (accepted source (sort edits)) := by
  have horder : OnBoundaries ([] ++ source) (sort edits) := fun e he => h e ((byStart_sort edits).perm.mem_iff.1 he)
  rw [accepted_eq]
  exact inPlace_acceptedFrom (sort edits) horder

/-- the text of an edit script -/
theorem text_run {source : List Char} {edits : List Edit} (h : OnBoundaries source edits) (trailer : List Char) :
    (run source edits trailer).1 = spliced source 0 (accepted source (sort edits)) ++ trailer := by
  obtain ⟨hplace, hpieces⟩ := inPlace_accepted h
  have htext : textOf (pieces source edits) = spliced source 0 (accepted source (sort edits)) := by
    rw [hpieces]
    exact hplace.textOf_cut
  rw [run, htext]

/-- **An edit script is exact.** The text is the source with the accepted edits applied and the trailer behind it,
generated places strictly increase, and a character outside of the accepted edits is found again behind the text that
was put in front of it: the nearest pair on its line leads to the line where it stood, and is as far in front of it in
the new text as in the old. Lines and columns are stored as 32-bit words; they are numbers here, which is the same for a
source and a new text with such places (`Text.Addressable`). -/
theorem run_exact {source : List Char} {edits : List Edit} (h : OnBoundaries source edits) (trailer : List Char) :
    ∃ order, (∀ other, ByStart edits other ↔ other = order) ∧
      (run source edits trailer).1 = spliced source 0 (accepted source order) ++ trailer ∧
      ((run source edits trailer).2.pairs.map Prod.fst).Pairwise
        (fun p q => p.line < q.line ∨ p.line = q.line ∧ p.column < q.column) ∧
      ∀ a c b, source = a ++ c :: b →
        (∀ e ∈ accepted source order, ¬ (e.start ≤ Text.byteLength a ∧ Text.byteLength a < e.stop)) →
        ∃ front back, (run source edits trailer).1 = front ++ c :: back ∧
          front = spliced a 0 ((accepted source order).filter fun e => e.stop ≤ Text.byteLength a) ∧
          ∃ q k, (run source edits trailer).2.Nearest (Text.placeAfter front) q ∧ q.2.line = (Text.placeAfter a).line ∧
            (Text.placeAfter front).column = q.1.column + k ∧ (Text.placeAfter a).column = q.2.column + k := by
  obtain ⟨hplace, hpieces⟩ := inPlace_accepted h
  refine ⟨sort edits, fun other => ⟨fun ho => ho.unique (byStart_sort edits), fun ho => ho ▸ byStart_sort edits⟩,
    text_run h trailer, ?_, ?_⟩
  · have hordered := (Trail.stable_ordered.foldl_follow (pieces source edits) ordered_trailStart).strict
    refine List.pairwise_map.2 (hordered.imp fun {p q} hpq => ?_)
    rw [Position.le_iff] at hpq
    omega
  · intro a c b hsource hout
    obtain ⟨before, x, y, behind, hkept, hold, hfront⟩ := hplace.exists_kept hsource hout
    have hkept' : pieces source edits = before ++ .kept (x ++ c :: y) :: behind := hpieces.trans hkept
    have hnew : textOf (pieces source edits) = (textOf before ++ x) ++ c :: (y ++ textOf behind) := by
      rw [hkept']
      simp [textOf, Piece.text]
    have hwhole : oldOf (pieces source edits) = (oldOf before ++ x) ++ c :: b := by rw [oldOf_pieces, hold, hsource]
    refine ⟨textOf before ++ x, y ++ textOf behind ++ trailer, ?_, hfront, ?_⟩
    · rw [run, hnew, List.append_assoc, List.cons_append]
    · obtain ⟨init, q, k, hupTo, hinit, hplaceNew, hplaceOld⟩ :=
        upTo_of_copiedFrom ⟨before, x, c, y, behind, hkept', rfl, rfl⟩
      rw [hnew, List.take_left] at hupTo hplaceNew
      rw [hwhole, List.take_left, hold] at hplaceOld
      exact ⟨q, k, Fragment.nearest_of_upTo hupTo hinit (by rw [hplaceNew]), by rw [hplaceOld], by rw [hplaceNew],
        by rw [hplaceOld]⟩

/-- edits out of order, one of which starts inside another and one of which ends beyond the text -/
theorem run_exact_overlap :
    let source : List Char := ['a', 'b', '\n', 'c']
    let edits : List Edit := [⟨4, 4, ['x']⟩, ⟨1, 3, ['\n', 'y']⟩, ⟨2, 3, []⟩, ⟨4, 9, []⟩]
    OnBoundaries source edits ∧ ∃ order, ByStart edits order ∧
      accepted source order = [⟨1, 3, ['\n', 'y']⟩, ⟨4, 4, ['x']⟩] ∧
      (run source edits [';']).1 = ['a', '\n', 'y', 'c', 'x', ';'] ∧
      ∃ q k, (run source edits [';']).2.Nearest ⟨1, 1⟩ q ∧ q.2.line = 1 ∧ 1 = q.1.column + k ∧ 0 = q.2.column + k := by
  intro source edits
  have hboundaries : OnBoundaries source edits := by
    have hone : OnBoundary source 1 := ⟨['a'], ['b', '\n', 'c'], rfl, by decide⟩
    have htwo : OnBoundary source 2 := ⟨['a', 'b'], ['\n', 'c'], rfl, by decide⟩
    have hthree : OnBoundary source 3 := ⟨['a', 'b', '\n'], ['c'], rfl, by decide⟩
    have hfour : OnBoundary source 4 := ⟨['a', 'b', '\n', 'c'], [], rfl, by decide⟩
    have hbeyond : ¬ 9 ≤ Text.byteLength source := by decide
    simp [OnBoundaries, edits, hone, htwo, hthree, hfour, hbeyond]
  have hsort : sort edits = [⟨1, 3, ['\n', 'y']⟩, ⟨2, 3, []⟩, ⟨4, 4, ['x']⟩, ⟨4, 9, []⟩] := by cbv
  obtain ⟨order, horder, htext, -, hkept⟩ := run_exact hboundaries [';']
  obtain rfl : sort edits = order := (horder _).1 (byStart_sort edits)
  have haccepted : accepted source (sort edits) = [⟨1, 3, ['\n', 'y']⟩, ⟨4, 4, ['x']⟩] := by
    rw [hsort]
    decide
  rw [haccepted] at htext hkept
  obtain ⟨front, back, -, rfl, q, k, hnearest, hline, hnew, hold⟩ := hkept ['a', 'b', '\n'] 'c' [] rfl (by decide)
  exact ⟨hboundaries, sort edits, byStart_sort edits, haccepted, htext, q, k, hnearest, hline, hnew, hold⟩

/-! ## Edits of which none is dropped -/

/-- edits of a text in order, at character boundaries, none of which reaches into the next -/
structure Orderly (source : List Char) (es : List Edit) : Prop where
  valid : ∀ e ∈ es, OnBoundary source e.start ∧ OnBoundary source e.stop ∧ e.start ≤ e.stop
  apart : es.Pairwise fun a b => a.stop ≤ b.start

theorem le_of_onBoundary {cs : List Char} {n : Nat} (h : OnBoundary cs n) : n ≤ Text.byteLength cs := by
  obtain ⟨before, behind, rfl, rfl⟩ := h
  rw [Text.byteLength_append]
  exact Nat.le_add_right _ _

theorem acceptedFrom_eq {source : List Char} {es : List Edit} (h : Orderly source es) :
    ∀ {pos : Nat}, (∀ e ∈ es, pos ≤ e.start) →
    acceptedFrom (Text.byteLength source) pos es = es := by
  induction es with
  | nil => intro pos _; rfl
  | cons e es ih =>
    intro pos hpos
    obtain ⟨hvalid, hvalids⟩ := List.forall_mem_cons.1 h.valid
    obtain ⟨hafter, hapart⟩ := List.pairwise_cons.1 h.apart
    have hstart := hpos e List.mem_cons_self
    have hstop := le_of_onBoundary hvalid.2.1
    have hfits : fits pos (Text.byteLength source) e = true := by
      simp only [fits, Bool.and_eq_true, decide_eq_true_eq]
      omega
    rw [acceptedFrom, if_pos hfits, ih ⟨hvalids, hapart⟩ hafter]

namespace Orderly

variable {source : List Char} {es : List Edit}

theorem onBoundaries (h : Orderly source es) : OnBoundaries source es :=
  fun e he => ⟨fun _ => (h.valid e he).1, fun _ => (h.valid e he).2.1⟩

/-- they are taken in the order in which they are given -/
theorem sort_eq (h : Orderly source es) : sort es = es :=
  sort_of_pairwise (h.apart.imp_of_mem fun ha _ hab => (h.valid _ ha).2.2.trans hab)

/-- none of them is dropped -/
theorem accepted_eq (h : Orderly source es) : accepted source es = es := by
  rw [EditScript.accepted_eq]
  exact acceptedFrom_eq h fun _ _ => Nat.zero_le _

theorem text_run (h : Orderly source es) (trailer : List Char) :
    (run source es trailer).1 = spliced source 0 es ++ trailer := by
  rw [EditScript.text_run h.onBoundaries, h.sort_eq, h.accepted_eq]

theorem sublist {some : List Edit} (h : Orderly source es) (hsub : some.Sublist es) : Orderly source some :=
  ⟨fun e he => h.valid e (hsub.subset he), h.apart.sublist hsub⟩

theorem append {more : List Edit} (h : Orderly source es) (h' : Orderly source more)
    (hapart : ∀ a ∈ es, ∀ b ∈ more, a.stop ≤ b.start) :
    Orderly source (es ++ more) :=
  ⟨List.forall_mem_append.2 ⟨h.valid, h'.valid⟩, List.pairwise_append.2 ⟨h.apart, h'.apart, hapart⟩⟩

theorem nil : Orderly source [] := ⟨by simp, .nil⟩

theorem singleton {e : Edit} (hstart : OnBoundary source e.start) (hstop : OnBoundary source e.stop)
    (hle : e.start ≤ e.stop) : Orderly source [e] :=
  ⟨List.forall_mem_singleton.2 ⟨hstart, hstop, hle⟩, List.pairwise_singleton _ _⟩

end Orderly

/-- what is put in stands in the spliced text -/
theorem infix_spliced {source : List Char} {e : Edit} (es : List Edit) :
    ∀ {pos : Nat}, e ∈ es → e.text <:+: spliced source pos es := by
  induction es with
  | nil => intro pos he; cases he
  | cons d es ih =>
    intro pos he
    rw [spliced]
    rcases List.mem_cons.1 he with rfl | he
    · exact List.infix_append' ..
    · exact (ih he).trans ((List.suffix_append _ _).trans (List.suffix_append _ _)).isInfix

end EditScript

end ClosurePipeline
