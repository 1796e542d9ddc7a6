/-
What a fragment says about a place. A fragment keeps pairs in the order in which they were pushed; stamped, they are
sorted and each generated place keeps its first pair.

- `Fragment.locate?`: where a place comes from: of the recorded places of its line that do not stand behind it, the
  nearest, and its first pair;
- `lookup_stamped`: the stamped map answers exactly so, with the name it was stamped with.

Sorting is stable, so the first pair of a place is the same before and after it (`find?_sort`), and dropping repeats
keeps it (`find?_dropRepeats`).
-/
import Mathlib.Tactic
import ClosurePipeline.SourceMap.Fragment
import ClosurePipeline.Proofs.SourceMap.Retrace

namespace ClosurePipeline

/-! ## The covering segment of a sorted list -/

namespace SourceMap

theorem takeWhile_eq_filter {segments : List Segment} (h : Segment.Sorted segments) (p : Position) :
    (segments.takeWhile fun s => s.generated.le p) = segments.filter fun s => s.generated.le p := by
  induction segments with
  | nil => rfl
  | cons s segments ih =>
    rw [Segment.Sorted, List.pairwise_cons] at h
    by_cases hs : s.generated.le p = true
    · rw [List.takeWhile_cons, if_pos hs, List.filter_cons, if_pos hs, ih h.2]
    · -- what stands behind a segment behind `p` is behind `p` too
      rw [List.takeWhile_cons, if_neg hs, List.filter_cons, if_neg hs, eq_comm, List.filter_eq_nil_iff]
      intro t ht htp
      exact hs (Position.le_trans (h.1 t ht) htp)

theorem le_getLast? {segments : List Segment} (h : Segment.Sorted segments) {s : Segment}
    (hs : segments.getLast? = some s) :
    ∀ t ∈ segments, t.generated.le s.generated = true := by
  obtain ⟨init, rfl⟩ := List.getLast?_eq_some_iff.1 hs
  rw [Segment.Sorted, List.pairwise_append] at h
  intro t ht
  rcases List.mem_append.1 ht with ht | ht
  · exact h.2.2 t ht s (List.mem_singleton_self s)
  · rw [List.mem_singleton.1 ht]
    exact Position.le_refl _

/-- the covering segment is the nearest on its line -/
theorem nearest_of_covering? {segments : List Segment} (h : Segment.Sorted segments) {p : Position} {s : Segment}
    (hs : covering? segments p = some s) :
    s ∈ segments ∧ s.generated.line = p.line ∧ s.generated.column ≤ p.column ∧
      ∀ t ∈ segments, t.generated.line = p.line → t.generated.column ≤ p.column →
        t.generated.column ≤ s.generated.column := by
  rw [covering?, takeWhile_eq_filter h] at hs
  obtain ⟨hlast, hline⟩ := Option.filter_eq_some_iff.1 hs
  rw [beq_iff_eq] at hline
  obtain ⟨hmem, hle⟩ := List.mem_filter.1 (List.mem_of_getLast? hlast)
  rw [Position.le_iff] at hle
  refine ⟨hmem, hline, by omega, fun t ht htl htc => ?_⟩
  have htp : t ∈ segments.filter fun s => s.generated.le p :=
    List.mem_filter.2 ⟨ht, Position.le_iff.2 (Or.inr ⟨htl, htc⟩)⟩
  have := Position.le_iff.1 (le_getLast? (h.filter _) hlast t htp)
  omega

theorem behind_of_covering?_none {segments : List Segment} (h : Segment.Sorted segments) {p : Position}
    (hp : covering? segments p = none) :
    ∀ t ∈ segments, t.generated.line = p.line → p.column < t.generated.column := by
  intro t ht htl
  by_contra hlt
  have htp : t ∈ segments.filter fun s => s.generated.le p :=
    List.mem_filter.2 ⟨ht, Position.le_iff.2 (Or.inr ⟨htl, by omega⟩)⟩
  rw [covering?, takeWhile_eq_filter h] at hp
  cases hlast : (segments.filter fun s => s.generated.le p).getLast? with
  | none => rw [List.getLast?_eq_none_iff.1 hlast] at htp; exact List.not_mem_nil htp
  | some s =>
    -- the last one at or before `p` is on the line of `p`, between `t` and `p`
    have h1 := Position.le_iff.1 (le_getLast? (h.filter _) hlast t htp)
    have h2 := Position.le_iff.1 (List.mem_filter.1 (List.mem_of_getLast? hlast)).2
    rw [hlast, Option.filter_some, if_pos (by rw [beq_iff_eq]; omega)] at hp
    cases hp

end SourceMap

/-! ## Sorting and dropping repeats -/

/-- sorting leaves elements that stand before each other either way in their order -/
theorem filter_mergeSort {α : Type} {le : α → α → Bool}
    (htrans : ∀ a b c, le a b = true → le b c = true → le a c = true) (htotal : ∀ a b, (le a b || le b a) = true)
    {p : α → Bool} (hp : ∀ a b, p a = true → p b = true → le a b = true) (l : List α) :
    (l.mergeSort le).filter p = l.filter p := by
  have hpairs : (l.filter p).Pairwise fun a b => le a b = true :=
    List.pairwise_of_forall_mem_list fun a ha b hb => hp a b (List.mem_filter.1 ha).2 (List.mem_filter.1 hb).2
  have hsub : (l.filter p).Sublist (l.mergeSort le) := List.sublist_mergeSort htrans htotal hpairs List.filter_sublist
  have hsub' := hsub.filter p
  rw [List.filter_filter] at hsub'
  simp only [Bool.and_self] at hsub'
  exact (hsub'.eq_of_length ((List.mergeSort_perm l le).filter p).length_eq.symm).symm

namespace Segment

theorem filter_sort (segments : List Segment) (g : Position) :
    (sort segments).filter (fun s => s.generated = g) = segments.filter fun s => s.generated = g := by
  have htrans : ∀ a b c, le a b = true → le b c = true → le a c = true := fun a b c => Position.le_trans
  have htotal : ∀ a b, (le a b || le b a) = true := fun a b => Position.le_total a.generated b.generated
  refine filter_mergeSort htrans htotal (fun a b ha hb => ?_) segments
  rw [le, of_decide_eq_true ha, of_decide_eq_true hb]
  exact Position.le_refl g

theorem find?_sort (segments : List Segment) (g : Position) :
    (sort segments).find? (fun s => s.generated = g) = segments.find? fun s => s.generated = g := by
  rw [← List.head?_filter, ← List.head?_filter, filter_sort]

end Segment

namespace Draft

theorem dropRepeats_sublist (segments : List Segment) : (dropRepeats segments).Sublist segments := by
  fun_induction dropRepeats segments with
  | case1 a b rest h ih => exact ih.trans ((List.sublist_cons_self b rest).cons_cons a)
  | case2 a b rest h ih => exact ih.cons_cons a
  | case3 segs h => exact List.Sublist.refl _

theorem find?_dropRepeats (segments : List Segment) (g : Position) :
    (dropRepeats segments).find? (fun s => s.generated = g) = segments.find? fun s => s.generated = g := by
  fun_induction dropRepeats segments with
  | case1 a b rest h ih =>
    rw [ih]
    by_cases ha : a.generated = g
    · simp [ha]
    · have hb : b.generated ≠ g := h ▸ ha
      simp [ha, hb]
  | case2 a b rest h ih =>
    by_cases ha : a.generated = g
    · simp [ha]
    · simpa [ha] using ih
  | case3 segs h => rfl

/-- no two segments at one place, and each before those behind it -/
theorem dropRepeats_strict {segments : List Segment} (h : Segment.Sorted segments) :
    (dropRepeats segments).Pairwise fun a b => a.le b = true ∧ a.generated ≠ b.generated := by
  fun_induction dropRepeats segments with
  | case1 a b rest hab ih => exact ih (h.sublist ((List.sublist_cons_self b rest).cons_cons a))
  | case2 a b rest hab ih =>
    rw [Segment.Sorted, List.pairwise_cons] at h
    refine List.pairwise_cons.2 ⟨fun c hc => ?_, ih h.2⟩
    have hc' := (dropRepeats_sublist (b :: rest)).subset hc
    refine ⟨h.1 c hc', fun e => hab ?_⟩
    -- `b` stands between two equal places
    have hbc : b.generated.le c.generated = true := by
      rcases List.mem_cons.1 hc' with rfl | hc'
      · exact Position.le_refl _
      · exact (List.pairwise_cons.1 h.2).1 c hc'
    exact Position.le_antisymm (h.1 b List.mem_cons_self) (e ▸ hbc)
  | case3 segs hs =>
    rcases segs with - | ⟨a, - | ⟨b, rest⟩⟩
    · exact List.Pairwise.nil
    · exact List.pairwise_singleton _ a
    · exact absurd rfl (hs a b rest)

end Draft

/-! ## Stamped fragments -/

namespace Fragment

/-- a fragment whose places fit 32 bits -/
def Fits (f : Fragment) : Prop := ∀ q ∈ f.pairs, Mappings.FitsPlace q.1 ∧ Mappings.FitsPlace q.2

instance (f : Fragment) : Decidable f.Fits := inferInstanceAs (Decidable (∀ q ∈ f.pairs, _))

/-- the columns recorded on the line of a place, up to the place -/
def columnsUpTo (f : Fragment) (p : Position) : List Nat :=
  (f.pairs.filter fun q => q.1.line = p.line ∧ q.1.column ≤ p.column).map fun q => q.1.column

/-- where a place comes from: the nearest recorded place of its line that does not stand behind it decides, by its first
pair -/
def locate? (f : Fragment) (p : Position) : Option Position :=
  (f.columnsUpTo p).max?.bind fun c => f.originOf? ⟨p.line, c⟩

/-- the segments of the pairs, all from one source -/
def toSegments (f : Fragment) : List Segment := f.pairs.map fun q => ⟨q.1, some ⟨0, q.2, none⟩⟩

theorem foldl_addSegment (pairs : List (Position × Position)) : ∀ d : Draft,
    pairs.foldl (fun d p => d.addSegment p.1 0 p.2) d =
      { d with segments := d.segments ++ pairs.map fun q => ⟨q.1, some ⟨0, q.2, none⟩⟩ } := by
  induction pairs with
  | nil => intro d; simp
  | cons p pairs ih =>
    intro d
    rw [List.foldl_cons, ih]
    simp [Draft.addSegment]

theorem stamped_eq (f : Fragment) (name : String) :
    f.stamped name = ⟨some name, none, [name], [none], [], Draft.dropRepeats (Segment.sort f.toSegments)⟩ := by
  have hfold := foldl_addSegment f.pairs ⟨[name], [none], []⟩
  simp only [stamped, Draft.addSource, List.nil_append, List.length_nil] at hfold ⊢
  rw [hfold]
  rfl

theorem mem_toSegments {f : Fragment} {s : Segment} :
    s ∈ f.toSegments ↔ ∃ q ∈ f.pairs, s = ⟨q.1, some ⟨0, q.2, none⟩⟩ := by
  simp only [toSegments, List.mem_map, eq_comm]

theorem sorted_segments_stamped (f : Fragment) : Segment.Sorted (Draft.dropRepeats (Segment.sort f.toSegments)) :=
  (Draft.dropRepeats_strict (Segment.sorted_sort _)).imp fun h => h.1

/-- a place is recorded in the stamped map exactly if it is recorded in the fragment, with its first pair -/
theorem find?_stamped (f : Fragment) (g : Position) :
    (Draft.dropRepeats (Segment.sort f.toSegments)).find? (fun s => s.generated = g) =
      (f.originOf? g).map fun q => ⟨g, some ⟨0, q, none⟩⟩ := by
  rw [Draft.find?_dropRepeats, Segment.find?_sort, toSegments, List.find?_map, originOf?, Option.map_map]
  cases h : f.pairs.find? fun p => p.1 = g with
  | none =>
    simp only [Function.comp_def]
    rw [h]
    rfl
  | some q =>
    have hq : q.1 = g := by simpa using List.find?_some h
    simp only [Function.comp_def]
    rw [h, ← hq]
    rfl

theorem mem_stamped_iff {f : Fragment} {s : Segment} : s ∈ Draft.dropRepeats (Segment.sort f.toSegments) ↔
    ∃ q, f.originOf? s.generated = some q ∧ s = ⟨s.generated, some ⟨0, q, none⟩⟩ := by
  constructor
  · intro hs
    -- a strictly increasing list has no other segment at the place of `s`
    have hfind : (Draft.dropRepeats (Segment.sort f.toSegments)).find? (fun t => t.generated = s.generated) =
        some s := by
      cases hf : (Draft.dropRepeats (Segment.sort f.toSegments)).find? (fun t => t.generated = s.generated) with
      | none => exact absurd (List.find?_eq_none.1 hf s hs) (by simp)
      | some t =>
        have ht := List.mem_of_find?_eq_some hf
        have hts : t.generated = s.generated := by simpa using List.find?_some hf
        have hstrict := (Draft.dropRepeats_strict (Segment.sorted_sort f.toSegments)).imp fun h => h.2
        have : Std.Symm fun a b : Segment => a.generated ≠ b.generated := ⟨fun _ _ h => h.symm⟩
        by_contra hne
        exact hstrict.forall ht hs (fun e => hne (by rw [e])) hts
    rw [find?_stamped] at hfind
    obtain ⟨q, hq, e⟩ := Option.map_eq_some_iff.1 hfind
    exact ⟨q, hq, e.symm⟩
  · rintro ⟨q, hq, e⟩
    have hfind := find?_stamped f s.generated
    rw [hq, Option.map_some, ← e] at hfind
    exact List.mem_of_find?_eq_some hfind

theorem mem_columnsUpTo {f : Fragment} {p : Position} {c : Nat} :
    c ∈ f.columnsUpTo p ↔ c ≤ p.column ∧ ∃ q, f.originOf? ⟨p.line, c⟩ = some q := by
  simp only [columnsUpTo, List.mem_map, List.mem_filter, decide_eq_true_eq]
  constructor
  · rintro ⟨⟨⟨l, c'⟩, q⟩, ⟨hmem, hl, hc⟩, e⟩
    simp only at hl hc e
    subst hl e
    refine ⟨hc, ?_⟩
    rw [← Option.isSome_iff_exists, originOf?, Option.isSome_map, List.find?_isSome]
    exact ⟨_, hmem, by simp⟩
  · rintro ⟨hc, q, hq⟩
    obtain ⟨pair, hfind, -⟩ := Option.map_eq_some_iff.1 hq
    have hpair : pair.1 = ⟨p.line, c⟩ := by simpa using List.find?_some hfind
    exact ⟨pair, ⟨List.mem_of_find?_eq_some hfind, by simp [hpair], by simp [hpair, hc]⟩, by simp [hpair]⟩

/-- a recorded place is the nearest to itself -/
theorem locate?_of_originOf? {f : Fragment} {p o : Position} (h : f.originOf? p = some o) : f.locate? p = some o := by
  have hmax : (f.columnsUpTo p).max? = some p.column :=
    List.max?_eq_some_iff.2 ⟨mem_columnsUpTo.2 ⟨le_refl _, o, h⟩, fun c hc => (mem_columnsUpTo.1 hc).1⟩
  rw [locate?, hmax]
  exact h

/-- **A stamped fragment answers as the fragment locates**, with the name it was stamped with. -/
theorem lookup_stamped (f : Fragment) (name : String) (p : Position) :
    (f.stamped name).lookup p = (f.locate? p).map fun q => ⟨name, q, none⟩ := by
  have hsorted := sorted_segments_stamped f
  rw [stamped_eq, SourceMap.lookup]
  simp only
  cases hc : SourceMap.covering? (Draft.dropRepeats (Segment.sort f.toSegments)) p with
  | none =>
    have hnone : f.columnsUpTo p = [] := by
      rw [List.eq_nil_iff_forall_not_mem]
      intro c hmem
      obtain ⟨hle, q, hq⟩ := mem_columnsUpTo.1 hmem
      have hrec := (mem_stamped_iff (s := ⟨⟨p.line, c⟩, some ⟨0, q, none⟩⟩)).2 ⟨q, hq, rfl⟩
      have := SourceMap.behind_of_covering?_none hsorted hc _ hrec rfl
      simp only at this
      omega
    simp [locate?, hnone]
  | some s =>
    obtain ⟨hs, hl, hle, hmax⟩ := SourceMap.nearest_of_covering? hsorted hc
    obtain ⟨q, hq, e⟩ := mem_stamped_iff.1 hs
    have hg : s.generated = ⟨p.line, s.generated.column⟩ := by rw [← hl]
    have hmax? : (f.columnsUpTo p).max? = some s.generated.column := by
      rw [List.max?_eq_some_iff]
      refine ⟨mem_columnsUpTo.2 ⟨hle, q, by rw [← hg]; exact hq⟩, fun c hmem => ?_⟩
      obtain ⟨hcle, r, hr⟩ := mem_columnsUpTo.1 hmem
      exact hmax _ ((mem_stamped_iff (s := ⟨⟨p.line, c⟩, some ⟨0, r, none⟩⟩)).2 ⟨r, hr, rfl⟩) rfl hcle
    have horigin : s.origin = some ⟨0, q, none⟩ := by rw [e]
    rw [locate?, hmax?, Option.bind_some, ← hg, hq]
    simp [horigin]

end Fragment

end ClosurePipeline
