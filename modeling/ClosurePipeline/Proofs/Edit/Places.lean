/-
Which places the fragment of an edit script leads to. A place of a text stands in front of a character or behind the
last one (`Text.IsPlace`), so it is on a line of the text and not behind its end (`Text.Holds`).

- `Trail.Preserved`: a property of a trail and of the texts before it that every step keeps holds at the end of all
  pieces;
- `Trail.Within`, `Trail.Marked`: pairs hold places of the two texts only, and the start of every line that has been
  reached is among them;
- `fits_fragmentOf`: the fragment of texts with 32-bit places has 32-bit places;
- `exists_locate?_fragmentOf`, `locate?_fragmentOf_eq_none`: the fragment leads from every line of the new text to a
  place of the old one, and from lines behind the new text nowhere;
- `run_of_pairwise`, `cut_cons`: edits given in order are cut out one behind the other.
-/
import Mathlib.Tactic
import ClosurePipeline.Proofs.Edit.Copied

namespace ClosurePipeline

/-! ## Places and lines -/

namespace Text

/-- a place in front of a character of a text, or behind the last one -/
def IsPlace (cs : List Char) (p : Position) : Prop := ∃ n, placeAfter (cs.take n) = p

/-- a place on a line of a text, not behind the end of the line -/
def Holds (cs : List Char) (p : Position) : Prop := ∃ line ∈ (cs.splitOn '\n')[p.line]?, p.column ≤ length16 line

instance (cs : List Char) (p : Position) : Decidable (Holds cs p) := inferInstanceAs (Decidable (∃ line ∈ _, _))

theorem splitOn_cons (c : Char) (cs : List Char) :
    (c :: cs).splitOn '\n' = if c = '\n' then [] :: cs.splitOn '\n' else (cs.splitOn '\n').modifyHead (c :: ·) := by
  rw [List.splitOn, List.splitOnP_cons_eq_if_modifyHead]
  simp only [beq_iff_eq]
  rfl

/-- the place behind a part of a text, by the line it is on; on the first line the columns in front of the text count
too -/
theorem exists_line_advanceAll (cs : List Char) : ∀ (n : Nat) (p : Position), ∃ i, ∃ line ∈ (cs.splitOn '\n')[i]?,
    (p.advanceAll (cs.take n)).line = p.line + i ∧
    (p.advanceAll (cs.take n)).column ≤ (if i = 0 then p.column else 0) + length16 line := by
  have hhere : ∀ (cs : List Char) (p : Position), ∃ i, ∃ line ∈ (cs.splitOn '\n')[i]?,
      p.line = p.line + i ∧ p.column ≤ (if i = 0 then p.column else 0) + length16 line := by
    intro cs p
    obtain ⟨line, lines, h⟩ := List.exists_cons_of_ne_nil (List.splitOn_ne_nil '\n' cs)
    exact ⟨0, line, by simp [h], rfl, Nat.le_add_right _ _⟩
  induction cs with
  | nil =>
    intro n p
    rw [List.take_nil]
    exact hhere [] p
  | cons c cs ih =>
    intro n p
    cases n with
    | zero => exact hhere (c :: cs) p
    | succ n =>
      obtain ⟨i, line, hline, hl, hc⟩ := ih n (p.advance c)
      change ∃ i, ∃ line ∈ _, ((p.advance c).advanceAll (cs.take n)).line = _ ∧
          ((p.advance c).advanceAll (cs.take n)).column ≤ _
      rw [hl, splitOn_cons]
      by_cases hbreak : c = '\n'
      · refine ⟨i + 1, line, by simpa [hbreak] using hline, ?_, ?_⟩
        · simp only [Position.advance, hbreak, if_true]
          omega
        · simpa [Position.advance, hbreak] using hc
      · rw [if_neg hbreak]
        cases i with
        | zero =>
          refine ⟨0, c :: line, ?_, ?_, ?_⟩
          · obtain ⟨first, rest, h⟩ := List.exists_cons_of_ne_nil (List.splitOn_ne_nil '\n' cs)
            simp_all
          · simp [Position.advance, hbreak]
          · simp only [Position.advance, hbreak, if_false, if_true, length16, List.map_cons, List.sum_cons] at hc ⊢
            omega
        | succ i =>
          refine ⟨i + 1, line, by simpa using hline, ?_, by simpa using hc⟩
          simp [Position.advance, hbreak]

theorem IsPlace.holds {cs : List Char} {p : Position} (h : IsPlace cs p) : Holds cs p := by
  obtain ⟨n, rfl⟩ := h
  obtain ⟨i, line, hline, hl, hc⟩ := exists_line_advanceAll cs n .start
  have hline' : (placeAfter (cs.take n)).line = i := hl.trans (Nat.zero_add i)
  refine ⟨line, hline'.symm ▸ hline, hc.trans ?_⟩
  simp [Position.start]

theorem IsPlace.line_le {cs : List Char} {p : Position} (h : IsPlace cs p) : p.line ≤ breaks cs := by
  obtain ⟨n, rfl⟩ := h
  rw [line_placeAfter]
  exact (List.take_sublist n cs).count_le '\n'

end Text

/-! ## Recorded places -/

namespace Fragment

theorem mem_places_push {f : Fragment} {g o x : Position} :
    x ∈ (f.push g o).pairs.map Prod.fst ↔ x = g ∨ x ∈ f.pairs.map Prod.fst := by
  rcases f.push_cases g o with ⟨init, o', hf, hpush⟩ | ⟨-, hpush⟩
  · rw [hpush, hf]
    simp [or_comm]
  · rw [hpush]
    simp [or_comm]

/-- a place recorded on the line of another, not behind it, makes the fragment lead from there to the origin
of a pair -/
theorem exists_locate? {f : Fragment} {p : Position} {c : Nat} (h : ⟨p.line, c⟩ ∈ f.pairs.map Prod.fst)
    (hc : c ≤ p.column) :
    ∃ q ∈ f.pairs, f.locate? p = some q.2 := by
  obtain ⟨q, hq, e⟩ := List.mem_map.1 h
  have hcolumn : c ∈ f.columnsUpTo p := List.mem_map.2 ⟨q, List.mem_filter.2 ⟨hq, by simp [e, hc]⟩, by rw [e]⟩
  obtain ⟨d, hmax⟩ := Option.isSome_iff_exists.1 (List.isSome_max?_of_mem hcolumn)
  obtain ⟨-, o, ho⟩ := mem_columnsUpTo.1 (List.max?_mem hmax)
  obtain ⟨r, hr, rfl⟩ := Option.map_eq_some_iff.1 ho
  refine ⟨r, List.mem_of_find?_eq_some hr, ?_⟩
  rw [locate?, hmax, Option.bind_some, ho]

theorem locate?_eq_none {f : Fragment} {p : Position} (h : ∀ q ∈ f.pairs, q.1.line ≠ p.line) : f.locate? p = none := by
  have hcolumns : f.columnsUpTo p = [] := by
    rw [columnsUpTo, List.map_eq_nil_iff, List.filter_eq_nil_iff]
    intro q hq
    simp [h q hq]
  rw [locate?, hcolumns]
  rfl

end Fragment

/-! ## What following pieces preserves -/

namespace EditScript

namespace Trail

/-- a property of a trail, of the new text before it and of the old one, that every step keeps -/
structure Preserved (I : Trail → List Char → List Char → Prop) : Prop where
  keep : ∀ {t : Trail} {c : Char} {new old : List Char}, I t (c :: new) (c :: old) → I (t.keep c) new old
  put : ∀ {t : Trail} {c : Char} {new old : List Char}, I t (c :: new) old → I (t.put c) new old
  resume : ∀ {t : Trail} {gone new old : List Char}, I t new (gone ++ old) →
    I (Trail.note { t with origin := t.origin.advanceAll gone } (t.origin.advanceAll gone)) new old

section

variable {I : Trail → List Char → List Char → Prop} {new old : List Char}

theorem Preserved.foldl_keep (hI : Preserved I) (cs : List Char) :
    ∀ {t : Trail}, I t (cs ++ new) (cs ++ old) → I (cs.foldl Trail.keep t) new old := by
  induction cs with
  | nil => intro t h; exact h
  | cons c cs ih => intro t h; exact ih (hI.keep h)

theorem Preserved.foldl_put (hI : Preserved I) (cs : List Char) :
    ∀ {t : Trail}, I t (cs ++ new) old → I (cs.foldl Trail.put t) new old := by
  induction cs with
  | nil => intro t h; exact h
  | cons c cs ih => intro t h; exact ih (hI.put h)

theorem Preserved.follow (hI : Preserved I) {t : Trail} (piece : Piece)
    (h : I t (piece.text ++ new) (piece.old ++ old)) :
    I (t.follow piece) new old := by
  cases piece with
  | kept cs => exact hI.foldl_keep cs h
  | replaced gone put => exact hI.resume (hI.foldl_put put h)

theorem Preserved.foldl_follow (hI : Preserved I) (ps : List Piece) :
    ∀ {t : Trail}, I t (textOf ps ++ new) (oldOf ps ++ old) →
    I (ps.foldl Trail.follow t) new old := by
  induction ps with
  | nil => intro t h; exact h
  | cons piece ps ih =>
    intro t h
    refine ih (hI.follow piece ?_)
    rw [← List.append_assoc, ← List.append_assoc]
    exact h

/-- what holds in front of all pieces holds behind them -/
theorem Preserved.trail (hI : Preserved I) (ps : List Piece) (h : I trailStart (textOf ps) (oldOf ps)) :
    I (ps.foldl Trail.follow trailStart) [] [] := by
  refine hI.foldl_follow ps ?_
  rwa [List.append_nil, List.append_nil]

end

/-- recorded places and those that lie before the trail, of the new text and of the old one, have a property -/
structure Within (G O : Position → Prop) (t : Trail) (new old : List Char) : Prop where
  pairs : ∀ q ∈ t.fragment.pairs, G q.1 ∧ O q.2
  generated : ∀ n, G (t.generated.advanceAll (new.take n))
  origin : ∀ n, O (t.origin.advanceAll (old.take n))

section

variable {G O : Position → Prop}

theorem Within.note {t : Trail} {new old : List Char} (h : Within G O t new old) :
    Within G O (t.note t.origin) new old := by
  refine ⟨fun q hq => ?_, h.generated, h.origin⟩
  rcases Fragment.mem_push hq with rfl | hq
  · exact ⟨h.generated 0, h.origin 0⟩
  · exact h.pairs q hq

theorem preserved_within (G O : Position → Prop) : Preserved (Within G O) where
  keep {t c new old} h := by
    have hgo : Within G O { t with generated := t.generated.advance c, origin := t.origin.advance c } new old :=
      ⟨h.pairs, fun n => h.generated (n + 1), fun n => h.origin (n + 1)⟩
    unfold Trail.keep
    dsimp only
    split_ifs
    · exact hgo.note
    · exact hgo
  put {t c new old} h := by
    have hgo : Within G O { t with generated := t.generated.advance c } new old :=
      ⟨h.pairs, fun n => h.generated (n + 1), h.origin⟩
    unfold Trail.put
    dsimp only
    split_ifs
    · exact hgo.note
    · exact hgo
  resume {t gone new old} h := by
    have hgo : Within G O { t with origin := t.origin.advanceAll gone } new old := by
      refine ⟨h.pairs, h.generated, fun n => ?_⟩
      have := h.origin (gone.length + n)
      rw [List.take_length_add_append, Position.advanceAll, List.foldl_append] at this
      exact this
    exact hgo.note

end

/-- the start of every line that has been reached is recorded -/
def Marked (t : Trail) : Prop := ∀ l ≤ t.generated.line, ⟨l, 0⟩ ∈ t.fragment.pairs.map Prod.fst

theorem Marked.note {t : Trail} (h : t.Marked) (o : Position) : (t.note o).Marked :=
  fun l hl => Fragment.mem_places_push.2 (Or.inr (h l hl))

/-- a line break is followed by a pair for the start of the next line -/
theorem Marked.noteBreak {t : Trail} (h : t.Marked) (o o' : Position) :
    (Trail.note { t with generated := t.generated.advance '\n', origin := o } o').Marked := by
  intro l hl
  rcases Nat.lt_or_eq_of_le hl with hl | rfl
  · exact Fragment.mem_places_push.2 (Or.inr (h l (Nat.le_of_lt_succ hl)))
  · exact Fragment.mem_places_push.2 (Or.inl rfl)

theorem preserved_marked : Preserved fun t _ _ => t.Marked where
  keep {t c new old} h := by
    unfold Trail.keep
    dsimp only
    split_ifs with hc
    · rw [hc]
      exact h.noteBreak _ _
    · intro l hl
      simp only [Position.advance, hc, if_false] at hl
      exact h l hl
  put {t c new old} h := by
    unfold Trail.put
    dsimp only
    split_ifs with hc
    · rw [hc]
      exact h.noteBreak _ _
    · intro l hl
      simp only [Position.advance, hc, if_false] at hl
      exact h l hl
  resume {t gone new old} h := Marked.note (t := { t with origin := t.origin.advanceAll gone }) h _

end Trail

/-! ## The fragment of pieces -/

theorem within_fragmentOf {G O : Position → Prop} {ps : List Piece}
    (hnew : ∀ n, G (Text.placeAfter ((textOf ps).take n))) (hold : ∀ n, O (Text.placeAfter ((oldOf ps).take n))) :
    ∀ q ∈ (fragmentOf ps).pairs, G q.1 ∧ O q.2 := by
  have hempty : Trail.Within G O {} (textOf ps) (oldOf ps) := ⟨by simp [Fragment.empty], hnew, hold⟩
  exact ((Trail.preserved_within G O).trail ps hempty.note).pairs

/-- **Texts with 32-bit places leave a fragment with 32-bit places.** -/
theorem fits_fragmentOf {ps : List Piece} (hnew : Text.Addressable (textOf ps)) (hold : Text.Addressable (oldOf ps)) :
    (fragmentOf ps).Fits :=
  within_fragmentOf hnew hold

/-- pairs lead from places of the new text to places of the old one -/
theorem isPlace_of_mem_fragmentOf {ps : List Piece} {q : Position × Position} (hq : q ∈ (fragmentOf ps).pairs) :
    Text.IsPlace (textOf ps) q.1 ∧ Text.IsPlace (oldOf ps) q.2 :=
  within_fragmentOf (fun n => ⟨n, rfl⟩) (fun n => ⟨n, rfl⟩) q hq

theorem mem_places_fragmentOf {ps : List Piece} {l : Nat} (hl : l ≤ Text.breaks (textOf ps)) :
    ⟨l, 0⟩ ∈ (fragmentOf ps).pairs.map Prod.fst := by
  have hstart : trailStart.Marked := by
    intro l hl
    rw [Nat.le_zero.1 hl]
    exact Fragment.mem_places_push.2 (Or.inl rfl)
  refine Trail.preserved_marked.trail ps hstart l ?_
  rw [(Trail.places_foldl_follow ps trailStart).1]
  exact hl.trans (Text.line_placeAfter (textOf ps)).ge

/-- **Every line of the new text leads to a place of the old one.** -/
theorem exists_locate?_fragmentOf {ps : List Piece} {p : Position} (hp : p.line ≤ Text.breaks (textOf ps)) :
    ∃ o, (fragmentOf ps).locate? p = some o ∧ Text.IsPlace (oldOf ps) o := by
  obtain ⟨q, hq, hlocate⟩ := Fragment.exists_locate? (mem_places_fragmentOf hp) (Nat.zero_le _)
  exact ⟨q.2, hlocate, (isPlace_of_mem_fragmentOf hq).2⟩

/-- nothing leads back from behind the new text -/
theorem locate?_fragmentOf_eq_none {ps : List Piece} {p : Position} (hp : Text.breaks (textOf ps) < p.line) :
    (fragmentOf ps).locate? p = none := by
  refine Fragment.locate?_eq_none fun q hq hline => ?_
  have := (isPlace_of_mem_fragmentOf hq).1.line_le
  omega

/-! ## Edits given in order -/

theorem sort_of_pairwise {es : List Edit} (h : es.Pairwise fun a b => a.start ≤ b.start) : sort es = es :=
  List.mergeSort_of_pairwise (h.imp fun hab => decide_eq_true hab)

theorem run_of_pairwise {source trailer : List Char} {es : List Edit} (h : es.Pairwise fun a b => a.start ≤ b.start) :
    run source es trailer = (textOf (cut 0 source es) ++ trailer, fragmentOf (cut 0 source es)) := by
  rw [run, pieces, sort_of_pairwise h]

/-- cutting a text at an edit keeps what is in front of it and goes on behind it -/
theorem cut_cons {pos : Nat} {front old rest new : List Char} {es : List Edit} :
    cut pos (front ++ (old ++ rest)) (⟨pos + Text.byteLength front, pos + Text.byteLength (front ++ old), new⟩ :: es) =
      .kept front :: .replaced old new :: cut (pos + Text.byteLength (front ++ old)) rest es := by
  have hfits : fits pos (pos + Text.byteLength (front ++ (old ++ rest)))
      ⟨pos + Text.byteLength front, pos + Text.byteLength (front ++ old), new⟩ = true := by
    simp only [fits, Text.byteLength_append, Bool.and_eq_true, decide_eq_true_eq]
    omega
  have hold : pos + Text.byteLength (front ++ old) - (pos + Text.byteLength front) = Text.byteLength old := by
    rw [Text.byteLength_append]
    omega
  rw [cut, if_pos hfits]
  simp only [hold, Nat.add_sub_cancel_left, Text.dropBytes_byteLength_append, Text.takeBytes_byteLength_append]

end EditScript

/-- the start of each line of a text is a place of it: keeping all of the text records it -/
theorem Text.isPlace_lineStart {cs : List Char} {l : Nat} (hl : l ≤ breaks cs) : IsPlace cs ⟨l, 0⟩ := by
  have htext : EditScript.textOf [.kept cs] = cs := by simp [EditScript.textOf, Piece.text]
  rw [← htext] at hl ⊢
  obtain ⟨q, hq, hplace⟩ := List.mem_map.1 (EditScript.mem_places_fragmentOf hl)
  rw [← hplace]
  exact (EditScript.isPlace_of_mem_fragmentOf hq).1

end ClosurePipeline
