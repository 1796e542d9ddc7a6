/-
Where copied characters come from. An edit script cuts a text into pieces; a character of the new text is copied if it
stands in a kept piece (`EditScript.CopiedFrom`).

- `line_placeAfter`, `column_placeAfter`: the place behind a text, by its line breaks and by the length of its last
  line;
- `oldOf_pieces`: the pieces of a text are all of it;
- `Trail.Ordered`, `Trail.Level`: what following a piece keeps. Pairs are recorded in reading order, and where keeping
  goes on the place reached is as far behind the last pair in the new text as in the old;
- `upTo_of_copiedFrom`: so the last pair up to the place of a copied character tells where it was copied from;
- `locate?_of_copiedFrom`: the fragment leads from the place of a copied character to the line it was copied from, and
  from the first place of a line to the very place.
-/
import Mathlib.Data.List.DropRight
import Mathlib.Tactic
import ClosurePipeline.Edit.Script
import ClosurePipeline.Proofs.SourceMap.Fragment

namespace ClosurePipeline

/-! ## Places of a text -/

namespace Text

/-- the place behind a text -/
def placeAfter (cs : List Char) : Position := Position.start.advanceAll cs

theorem placeAfter_append (a b : List Char) : placeAfter (a ++ b) = (placeAfter a).advanceAll b := List.foldl_append

theorem placeAfter_concat (cs : List Char) (c : Char) :
    placeAfter (cs ++ [c]) = (placeAfter cs).advance c := placeAfter_append cs [c]

/-- the line of a place counts the breaks before it -/
theorem line_placeAfter (cs : List Char) : (placeAfter cs).line = breaks cs := by
  induction cs using List.reverseRecOn with
  | nil => rfl
  | append_singleton cs c ih =>
    rw [placeAfter_concat, breaks, List.count_append, ← breaks, ← ih]
    by_cases hc : c = '\n'
    · simp [Position.advance, hc]
    · simp [Position.advance, hc]

/-- the length of a text in UTF-16 code units -/
def length16 (cs : List Char) : Nat := (cs.map units16).sum

/-- the column of a place is the length of what stands before it on its line -/
theorem column_placeAfter (cs : List Char) : (placeAfter cs).column = length16 (cs.rtakeWhile (· ≠ '\n')) := by
  induction cs using List.reverseRecOn with
  | nil => rfl
  | append_singleton cs c ih =>
    rw [placeAfter_concat, List.rtakeWhile_concat]
    by_cases hc : c = '\n'
    · simp [Position.advance, hc, length16]
    · rw [Position.advance, if_neg hc, if_pos (by simpa using hc)]
      simp [ih, length16]

theorem units16_pos (c : Char) : 0 < units16 c := by
  unfold units16
  split_ifs <;> omega

/-- character `i` is the first one of line `l` -/
def StartsLine (cs : List Char) (l i : Nat) : Prop :=
  i < cs.length ∧ breaks (cs.take i) = l ∧ (i = 0 ∨ cs[i - 1]? = some '\n')

instance (cs : List Char) (l i : Nat) : Decidable (StartsLine cs l i) := inferInstanceAs (Decidable (_ ∧ _ ∧ _))

theorem StartsLine.placeAfter_take {cs : List Char} {l i : Nat} (h : StartsLine cs l i) :
    placeAfter (cs.take i) = ⟨l, 0⟩ := by
  obtain ⟨hi, hl, hstart⟩ := h
  have hcolumn : (placeAfter (cs.take i)).column = 0 := by
    cases i with
    | zero => rfl
    | succ m =>
      have hprev : cs[m]? = some '\n' := hstart.resolve_left (Nat.succ_ne_zero m)
      rw [List.take_add_one, hprev, Option.toList_some, column_placeAfter, List.rtakeWhile_concat,
        if_neg (by simp)]
      rfl
  have hline : (placeAfter (cs.take i)).line = l := by rw [line_placeAfter, hl]
  calc placeAfter (cs.take i) = ⟨(placeAfter (cs.take i)).line, (placeAfter (cs.take i)).column⟩ := rfl
    _ = ⟨l, 0⟩ := by rw [hline, hcolumn]

/-- every place of a text has a 32-bit line and column -/
def Addressable (cs : List Char) : Prop := ∀ n, Mappings.FitsPlace (placeAfter (cs.take n))

theorem units16_le (c : Char) : units16 c ≤ 2 := by
  unfold units16
  split_ifs <;> omega

theorem placeAfter_le (cs : List Char) : (placeAfter cs).line ≤ cs.length ∧ (placeAfter cs).column ≤ 2 * cs.length := by
  induction cs using List.reverseRecOn with
  | nil => exact ⟨Nat.le_refl _, Nat.le_refl _⟩
  | append_singleton cs c ih =>
    have hunits := units16_le c
    rw [placeAfter_concat, List.length_append, List.length_singleton]
    unfold Position.advance
    split_ifs <;> dsimp only <;> omega

/-- a text of less than half as many characters as there are words has 32-bit places -/
theorem addressable_of_length {cs : List Char} (h : 2 * cs.length < Mappings.indexLimit) : Addressable cs := by
  intro n
  obtain ⟨hline, hcolumn⟩ := placeAfter_le (cs.take n)
  have hlength : (cs.take n).length ≤ cs.length := List.length_take_le' n cs
  exact ⟨by omega, by omega⟩

end Text

namespace Position

theorem le_advance (p : Position) (c : Char) : p.le (p.advance c) = true := by
  rw [le_iff]
  unfold advance
  split_ifs
  · exact Or.inl (Nat.lt_succ_self _)
  · exact Or.inr ⟨rfl, Nat.le_add_right _ _⟩

theorem not_advance_le (p : Position) (c : Char) : ¬ (p.advance c).le p = true := by
  have hpos := Text.units16_pos c
  rw [le_iff]
  unfold advance
  split_ifs
  · simp only
    omega
  · simp only
    omega

end Position

/-! ## Pushing pairs -/

namespace Fragment

/-- the pairs recorded up to a place -/
def upTo (f : Fragment) (p : Position) : List (Position × Position) := f.pairs.filter fun q => q.1.le p

/-- a push puts a pair at the end, in place of the last one or behind it -/
theorem push_cases (f : Fragment) (g o : Position) :
    (∃ init o', f.pairs = init ++ [(g, o')] ∧ (f.push g o).pairs = init ++ [(g, o)]) ∨
      ((∀ last ∈ f.pairs.getLast?, last.1 ≠ g) ∧ (f.push g o).pairs = f.pairs ++ [(g, o)]) := by
  unfold push
  cases hlast : f.pairs.getLast? with
  | none =>
    rw [List.getLast?_eq_none_iff] at hlast
    exact Or.inr ⟨by simp, by simp [hlast]⟩
  | some last =>
    obtain ⟨init, hinit⟩ := List.getLast?_eq_some_iff.1 hlast
    dsimp only
    split_ifs with h
    · exact Or.inl ⟨init, last.2, by rw [hinit, ← h], by rw [hinit, List.dropLast_concat]⟩
    · refine Or.inr ⟨fun x hx => ?_, rfl⟩
      rw [← Option.some.inj (Option.mem_def.1 hx)]
      exact h

theorem mem_push {f : Fragment} {g o : Position} {q : Position × Position} (h : q ∈ (f.push g o).pairs) :
    q = (g, o) ∨ q ∈ f.pairs := by
  rcases f.push_cases g o with ⟨init, o', hf, hpush⟩ | ⟨-, hpush⟩
  · rw [hpush] at h
    rcases List.mem_append.1 h with h | h
    · exact Or.inr (hf ▸ List.mem_append_left _ h)
    · exact Or.inl (List.mem_singleton.1 h)
  · rw [hpush] at h
    rcases List.mem_append.1 h with h | h
    · exact Or.inr h
    · exact Or.inl (List.mem_singleton.1 h)

/-- a push behind a place keeps what is recorded up to it -/
theorem upTo_push {f : Fragment} {g o p : Position} (h : ¬ g.le p = true) : (f.push g o).upTo p = f.upTo p := by
  rcases f.push_cases g o with ⟨init, o', hf, hpush⟩ | ⟨-, hpush⟩
  · rw [upTo, upTo, hpush, hf, List.filter_append, List.filter_append]
    simp [h]
  · rw [upTo, upTo, hpush, List.filter_append]
    simp [h]

/-- the last pair up to a place decides, if it is on the line of the place -/
theorem locate?_of_upTo {f : Fragment} {p g o : Position} {init : List (Position × Position)}
    (h : f.upTo p = init ++ [(g, o)]) (hinit : ∀ q ∈ init, ¬ g.le q.1 = true) (hline : g.line = p.line) :
    f.locate? p = some o := by
  have hmem : ∀ q, q ∈ f.pairs ∧ q.1.le p = true ↔ q ∈ init ∨ q = (g, o) := by
    intro q
    have := congrArg (q ∈ ·) h
    simpa only [upTo, List.mem_filter, List.mem_append, List.mem_singleton, eq_iff_iff] using this
  obtain ⟨hg, hgp⟩ := (hmem (g, o)).2 (Or.inr rfl)
  have hcolumn : g.column ≤ p.column := by
    have := Position.le_iff.1 hgp
    simp only at this
    omega
  have hmax : (f.columnsUpTo p).max? = some g.column := by
    rw [List.max?_eq_some_iff]
    constructor
    · refine List.mem_map.2 ⟨(g, o), List.mem_filter.2 ⟨hg, ?_⟩, rfl⟩
      rw [decide_eq_true_eq]
      exact ⟨hline, hcolumn⟩
    · intro c hc
      obtain ⟨q, hq, rfl⟩ := List.mem_map.1 hc
      obtain ⟨hq, hqp⟩ := List.mem_filter.1 hq
      rw [decide_eq_true_eq] at hqp
      rcases (hmem q).1 ⟨hq, Position.le_iff.2 (Or.inr hqp)⟩ with hq | rfl
      · have := hinit q hq
        rw [Position.le_iff] at this
        omega
      · exact Nat.le_refl _
  have hfind : f.pairs.find? (fun q => q.1 = g) = some (g, o) := by
    have hsame : f.pairs.find? (fun q => q.1 = g) = (f.upTo p).find? fun q => q.1 = g := by
      rw [upTo, List.find?_filter]
      congr 1
      funext q
      by_cases hq : q.1 = g
      · simp [hq, show g.le p = true from hgp]
      · simp [hq]
    rw [hsame, h, List.find?_append, List.find?_eq_none.2, Option.none_or]
    · simp
    · intro q hq
      simp only [decide_eq_true_eq]
      exact fun e => hinit q hq (e ▸ Position.le_refl _)
  have hplace : (⟨p.line, g.column⟩ : Position) = g := by rw [← hline]
  rw [locate?, hmax, Option.bind_some, hplace, originOf?, hfind]
  rfl

end Fragment

/-! ## Following pieces -/

/-- the old text of a piece -/
def Piece.old : Piece → List Char
  | kept cs => cs
  | replaced old _ => old

namespace EditScript

/-- the old text of pieces -/
def oldOf (ps : List Piece) : List Char := ps.flatMap Piece.old

/-- character `i` of the new text is character `j` of the old one, in a piece that is kept -/
def CopiedFrom (ps : List Piece) (i j : Nat) : Prop :=
  ∃ before a c b after, ps = before ++ .kept (a ++ c :: b) :: after ∧ i = (textOf before ++ a).length ∧
    j = (oldOf before ++ a).length

namespace Trail

/-- pairs in reading order, none behind the place reached -/
structure Ordered (t : Trail) : Prop where
  strict : t.fragment.pairs.Pairwise fun a b => ¬ b.1.le a.1 = true
  upTo : ∀ q ∈ t.fragment.pairs, q.1.le t.generated = true

/-- the place reached is on the lines of the last pair, and as far behind it in the new text as in the old -/
def Level (t : Trail) : Prop :=
  ∃ q k, t.fragment.pairs.getLast? = some q ∧ t.generated = ⟨q.1.line, q.1.column + k⟩ ∧
    t.origin = ⟨q.2.line, q.2.column + k⟩

theorem Ordered.note {t : Trail} (h : t.Ordered) (o : Position) : (t.note o).Ordered := by
  have hupTo : ∀ q ∈ (t.note o).fragment.pairs, q.1.le t.generated = true := by
    intro q hq
    rcases Fragment.mem_push hq with rfl | hq
    · exact Position.le_refl _
    · exact h.upTo q hq
  refine ⟨?_, hupTo⟩
  rcases t.fragment.push_cases t.generated o with ⟨init, o', hf, hpush⟩ | ⟨hlast, hpush⟩
  · have hstrict := h.strict
    rw [hf, List.pairwise_append] at hstrict
    rw [Trail.note, hpush, List.pairwise_append]
    refine ⟨hstrict.1, List.pairwise_singleton _ _, fun a ha b hb => ?_⟩
    rw [List.mem_singleton.1 hb]
    exact hstrict.2.2 a ha (t.generated, o') (List.mem_singleton_self _)
  · rw [Trail.note, hpush, List.pairwise_append]
    refine ⟨h.strict, List.pairwise_singleton _ _, fun a ha b hb hle => ?_⟩
    rw [List.mem_singleton.1 hb] at hle
    -- a pair at the place reached is the last one, and the last one is not there
    obtain ⟨last, hl⟩ : ∃ last, t.fragment.pairs.getLast? = some last := by
      rw [← Option.isSome_iff_exists, List.getLast?_isSome]
      exact List.ne_nil_of_mem ha
    obtain ⟨init, hinit⟩ := List.getLast?_eq_some_iff.1 hl
    refine hlast last hl ?_
    refine Position.le_antisymm (h.upTo last (List.mem_of_getLast? hl)) ?_
    have hstrict := h.strict
    rw [hinit, List.pairwise_append] at hstrict
    rw [hinit] at ha
    rcases List.mem_append.1 ha with ha' | ha'
    · have hbehind := hstrict.2.2 a ha' last (List.mem_singleton_self _)
      exact absurd (Position.le_trans (h.upTo last (List.mem_of_getLast? hl)) hle) hbehind
    · rw [List.mem_singleton.1 ha'] at hle
      exact hle

theorem Level.note (t : Trail) : (t.note t.origin).Level := by
  refine ⟨(t.generated, t.origin), 0, ?_, rfl, rfl⟩
  rcases t.fragment.push_cases t.generated t.origin with ⟨init, o', -, hpush⟩ | ⟨-, hpush⟩
  · rw [Trail.note, hpush, List.getLast?_concat]
  · rw [Trail.note, hpush, List.getLast?_concat]

/-- a property that noting a pair and going on in the new text keep -/
structure Stable (I : Trail → Prop) : Prop where
  note : ∀ {t : Trail}, I t → ∀ o, I (t.note o)
  goOn : ∀ {t : Trail}, I t → ∀ {g : Position}, t.generated.le g = true → ∀ o, I { t with generated := g, origin := o }

section

variable {I : Trail → Prop}

theorem Stable.keep (hI : Stable I) {t : Trail} (h : I t) (c : Char) : I (t.keep c) := by
  have hgo := hI.goOn h (t.generated.le_advance c) (t.origin.advance c)
  unfold Trail.keep
  dsimp only
  split_ifs
  · exact hI.note hgo _
  · exact hgo

theorem Stable.put (hI : Stable I) {t : Trail} (h : I t) (c : Char) : I (t.put c) := by
  have hgo := hI.goOn h (t.generated.le_advance c) t.origin
  unfold Trail.put
  dsimp only
  split_ifs
  · exact hI.note hgo _
  · exact hgo

theorem Stable.foldl_keep (hI : Stable I) (cs : List Char) : ∀ {t : Trail}, I t → I (cs.foldl Trail.keep t) := by
  induction cs with
  | nil => intro t h; exact h
  | cons c cs ih => intro t h; exact ih (hI.keep h c)

theorem Stable.foldl_put (hI : Stable I) (cs : List Char) : ∀ {t : Trail}, I t → I (cs.foldl Trail.put t) := by
  induction cs with
  | nil => intro t h; exact h
  | cons c cs ih => intro t h; exact ih (hI.put h c)

theorem Stable.follow (hI : Stable I) {t : Trail} (h : I t) (piece : Piece) : I (t.follow piece) := by
  cases piece with
  | kept cs => exact hI.foldl_keep cs h
  | replaced old new => exact hI.note (hI.goOn (hI.foldl_put new h) (Position.le_refl _) _) _

theorem Stable.foldl_follow (hI : Stable I) (ps : List Piece) : ∀ {t : Trail}, I t → I (ps.foldl Trail.follow t) := by
  induction ps with
  | nil => intro t h; exact h
  | cons piece ps ih => intro t h; exact ih (hI.follow h piece)

end

theorem stable_ordered : Stable Ordered :=
  ⟨fun h o => h.note o, fun h _ hle _ => ⟨h.strict, fun q hq => Position.le_trans (h.upTo q hq) hle⟩⟩

theorem Level.keep {t : Trail} (h : t.Level) (c : Char) : (t.keep c).Level := by
  unfold Trail.keep
  dsimp only
  split_ifs with hc
  · exact Level.note _
  · obtain ⟨q, k, hlast, hgenerated, horigin⟩ := h
    refine ⟨q, k + Text.units16 c, hlast, ?_, ?_⟩
    · change t.generated.advance c = _
      rw [hgenerated, Position.advance, if_neg hc, Nat.add_assoc]
    · change t.origin.advance c = _
      rw [horigin, Position.advance, if_neg hc, Nat.add_assoc]

theorem Level.foldl_keep (cs : List Char) : ∀ {t : Trail}, t.Level → (cs.foldl Trail.keep t).Level := by
  induction cs with
  | nil => intro t h; exact h
  | cons c cs ih => intro t h; exact ih (h.keep c)

/-- where a piece ends, the last pair is as far behind in both texts -/
theorem Level.follow {t : Trail} (h : t.Level) (piece : Piece) : (t.follow piece).Level := by
  cases piece with
  | kept cs => exact Level.foldl_keep cs h
  | replaced old new => exact Level.note _

theorem Level.foldl_follow (ps : List Piece) : ∀ {t : Trail}, t.Level → (ps.foldl Trail.follow t).Level := by
  induction ps with
  | nil => intro t h; exact h
  | cons piece ps ih => intro t h; exact ih (h.follow piece)

/-- the trail is past a place, and has this recorded up to it -/
def Past (p : Position) (pairs : List (Position × Position)) (t : Trail) : Prop :=
  ¬ t.generated.le p = true ∧ t.fragment.upTo p = pairs

/-- what is noted later stands behind the place -/
theorem stable_past (p : Position) (pairs : List (Position × Position)) : Stable (Past p pairs) :=
  ⟨fun h _ => ⟨h.1, (Fragment.upTo_push h.1).trans h.2⟩,
    fun h _ hle _ => ⟨fun hp => h.1 (Position.le_trans hle hp), h.2⟩⟩

/-- keeping a character goes past its place -/
theorem Ordered.past_keep {t : Trail} (h : t.Ordered) (c : Char) : Past t.generated t.fragment.pairs (t.keep c) := by
  have hgo :
      Past t.generated t.fragment.pairs { t with generated := t.generated.advance c, origin := t.origin.advance c } :=
    ⟨t.generated.not_advance_le c, List.filter_eq_self.2 h.upTo⟩
  unfold Trail.keep
  dsimp only
  split_ifs
  · exact (stable_past _ _).note hgo _
  · exact hgo

/-! ## Places of a trail -/

theorem places_keep (t : Trail) (c : Char) :
    (t.keep c).generated = t.generated.advance c ∧ (t.keep c).origin = t.origin.advance c := by
  unfold Trail.keep
  dsimp only
  split_ifs <;> exact ⟨rfl, rfl⟩

theorem places_put (t : Trail) (c : Char) :
    (t.put c).generated = t.generated.advance c ∧ (t.put c).origin = t.origin := by
  unfold Trail.put
  dsimp only
  split_ifs <;> exact ⟨rfl, rfl⟩

theorem places_foldl_keep (cs : List Char) : ∀ t : Trail,
    (cs.foldl Trail.keep t).generated = t.generated.advanceAll cs ∧
    (cs.foldl Trail.keep t).origin = t.origin.advanceAll cs := by
  induction cs with
  | nil => intro t; exact ⟨rfl, rfl⟩
  | cons c cs ih =>
    intro t
    obtain ⟨hg, ho⟩ := ih (t.keep c)
    rw [(t.places_keep c).1] at hg
    rw [(t.places_keep c).2] at ho
    exact ⟨hg, ho⟩

theorem places_foldl_put (cs : List Char) : ∀ t : Trail,
    (cs.foldl Trail.put t).generated = t.generated.advanceAll cs ∧ (cs.foldl Trail.put t).origin = t.origin := by
  induction cs with
  | nil => intro t; exact ⟨rfl, rfl⟩
  | cons c cs ih =>
    intro t
    obtain ⟨hg, ho⟩ := ih (t.put c)
    rw [(t.places_put c).1] at hg
    rw [(t.places_put c).2] at ho
    exact ⟨hg, ho⟩

theorem places_follow (t : Trail) (piece : Piece) :
    (t.follow piece).generated = t.generated.advanceAll piece.text ∧
    (t.follow piece).origin = t.origin.advanceAll piece.old := by
  cases piece with
  | kept cs => exact places_foldl_keep cs t
  | replaced old new =>
    obtain ⟨hg, ho⟩ := places_foldl_put new t
    refine ⟨hg, ?_⟩
    change (new.foldl Trail.put t).origin.advanceAll old = t.origin.advanceAll old
    rw [ho]

theorem places_foldl_follow (ps : List Piece) : ∀ t : Trail,
    (ps.foldl Trail.follow t).generated = t.generated.advanceAll (textOf ps) ∧
      (ps.foldl Trail.follow t).origin = t.origin.advanceAll (oldOf ps) := by
  induction ps with
  | nil => intro t; exact ⟨rfl, rfl⟩
  | cons piece ps ih =>
    intro t
    obtain ⟨hg, ho⟩ := ih (t.follow piece)
    rw [(t.places_follow piece).1] at hg
    rw [(t.places_follow piece).2] at ho
    exact ⟨hg.trans List.foldl_append.symm, ho.trans List.foldl_append.symm⟩

end Trail

/-! ## Copied characters -/

/-- the trail in front of the first character -/
def trailStart : Trail := Trail.note {} .start

theorem ordered_trailStart : trailStart.Ordered := Trail.Ordered.note ⟨List.Pairwise.nil, by simp [Fragment.empty]⟩ _

theorem level_trailStart : trailStart.Level := Trail.Level.note {}

theorem lt_length_of_copiedFrom {ps : List Piece} {i j : Nat} (h : CopiedFrom ps i j) : i < (textOf ps).length := by
  obtain ⟨before, a, c, b, after, rfl, rfl, -⟩ := h
  simp [textOf, Piece.text]

/-- the last pair up to the place of a copied character is on its line, as far in front of it as the pair's origin is in
front of where it comes from -/
theorem upTo_of_copiedFrom {ps : List Piece} {i j : Nat} (h : CopiedFrom ps i j) :
    ∃ init q k, (fragmentOf ps).upTo (Text.placeAfter ((textOf ps).take i)) = init ++ [q] ∧
      (∀ r ∈ init, ¬ q.1.le r.1 = true) ∧ Text.placeAfter ((textOf ps).take i) = ⟨q.1.line, q.1.column + k⟩ ∧
      Text.placeAfter ((oldOf ps).take j) = ⟨q.2.line, q.2.column + k⟩ := by
  obtain ⟨before, a, c, b, after, rfl, rfl, rfl⟩ := h
  -- the trail in front of the character
  let t := a.foldl Trail.keep (before.foldl Trail.follow trailStart)
  have hordered : t.Ordered :=
    Trail.stable_ordered.foldl_keep a (Trail.stable_ordered.foldl_follow before ordered_trailStart)
  have hlevel : t.Level := Trail.Level.foldl_keep a (Trail.Level.foldl_follow before level_trailStart)
  have hnew : (textOf (before ++ .kept (a ++ c :: b) :: after)).take (textOf before ++ a).length =
      textOf before ++ a := by
    have : textOf (before ++ .kept (a ++ c :: b) :: after) = (textOf before ++ a) ++ (c :: b ++ textOf after) := by
      simp [textOf, Piece.text]
    rw [this, List.take_left]
  have hold : (oldOf (before ++ .kept (a ++ c :: b) :: after)).take (oldOf before ++ a).length = oldOf before ++ a := by
    have : oldOf (before ++ .kept (a ++ c :: b) :: after) = (oldOf before ++ a) ++ (c :: b ++ oldOf after) := by
      simp [oldOf, Piece.old]
    rw [this, List.take_left]
  obtain ⟨hbg, hbo⟩ := Trail.places_foldl_follow before trailStart
  obtain ⟨hg, ho⟩ := Trail.places_foldl_keep a (before.foldl Trail.follow trailStart)
  have hgenerated : t.generated = Text.placeAfter (textOf before ++ a) := by
    rw [hg, hbg, Text.placeAfter_append]
    rfl
  have horigin : t.origin = Text.placeAfter (oldOf before ++ a) := by
    rw [ho, hbo, Text.placeAfter_append]
    rfl
  have hupTo : (fragmentOf (before ++ .kept (a ++ c :: b) :: after)).upTo t.generated = t.fragment.pairs := by
    have hpast :=
      (Trail.stable_past _ _).foldl_follow after ((Trail.stable_past _ _).foldl_keep b (hordered.past_keep c))
    have hsplit : (before ++ .kept (a ++ c :: b) :: after).foldl Trail.follow trailStart =
        after.foldl Trail.follow (b.foldl Trail.keep (t.keep c)) := by
      rw [List.foldl_append, List.foldl_cons]
      congr 1
      exact List.foldl_append
    rw [← hsplit] at hpast
    exact hpast.2
  rw [hnew, hold, ← hgenerated, ← horigin]
  obtain ⟨q, k, hlast, hplace, hplace'⟩ := hlevel
  obtain ⟨init, hinit⟩ := List.getLast?_eq_some_iff.1 hlast
  have hstrict := hordered.strict
  rw [hinit, List.pairwise_append] at hstrict
  exact ⟨init, q, k, hupTo.trans hinit, fun r hr => hstrict.2.2 r hr q (List.mem_singleton_self q), hplace, hplace'⟩

/-- **The fragment leads back from copied characters**: to the line they come from, and from the first place of a line
to the very place. -/
theorem locate?_of_copiedFrom {ps : List Piece} {i j : Nat} (h : CopiedFrom ps i j) :
    ∃ o, (fragmentOf ps).locate? (Text.placeAfter ((textOf ps).take i)) = some o ∧
      o.line = (Text.placeAfter ((oldOf ps).take j)).line ∧
      ((Text.placeAfter ((textOf ps).take i)).column = 0 → o = Text.placeAfter ((oldOf ps).take j)) := by
  obtain ⟨init, q, k, hupTo, hinit, hnew, hold⟩ := upTo_of_copiedFrom h
  refine ⟨q.2, Fragment.locate?_of_upTo hupTo hinit (by rw [hnew]), by rw [hold], fun hcolumn => ?_⟩
  rw [hnew] at hcolumn
  obtain rfl : k = 0 := (Nat.add_eq_zero_iff.1 hcolumn).2
  rw [hold, Nat.add_zero]

/-! ## The pieces of a text -/

theorem takeBytes_append_dropBytes (n : Nat) (cs : List Char) : Text.takeBytes n cs ++ Text.dropBytes n cs = cs := by
  fun_induction Text.takeBytes n cs with
  | case1 cs => rw [Text.dropBytes, List.nil_append]
  | case2 n => rfl
  | case3 n c cs ih => rw [Text.dropBytes, List.cons_append, ih]

theorem oldOf_cut (es : List Edit) : ∀ pos rest, oldOf (cut pos rest es) = rest := by
  induction es with
  | nil =>
    intro pos rest
    simp [cut, oldOf, Piece.old]
  | cons e es ih =>
    intro pos rest
    rw [cut]
    split_ifs
    · have hrest := ih e.stop (Text.dropBytes (e.stop - e.start) (Text.dropBytes (e.start - pos) rest))
      unfold oldOf at hrest ⊢
      dsimp only
      rw [List.flatMap_cons, List.flatMap_cons, hrest, Piece.old, Piece.old, takeBytes_append_dropBytes,
        takeBytes_append_dropBytes]
    · exact ih pos rest

/-- **The pieces of a text are all of it.** -/
theorem oldOf_pieces (source : List Char) (edits : List Edit) :
    oldOf (pieces source edits) = source := oldOf_cut _ 0 source

end EditScript

end ClosurePipeline
