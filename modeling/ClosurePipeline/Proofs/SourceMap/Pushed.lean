/-
What a sequence of pushes makes of a fragment, and what its stamped map says of it. Pushing keeps the last of neighbours
at one generated place, a query takes the first pair of a place, and stamping sorts and keeps the first: for one place
all three speak of the same pair, the last of the first run of pushes at that place.

- `keepLast`: of neighbours at one generated place, the last; `pairs_pushAll` says that pushing does this;
- `firstRun`: the first pushes at a place that no push at another place parts; `originOf?_pushAll` says that the last of
  them answers;
- `filter_stamped`: a place has one segment in the stamped map if it is recorded, and else none;
- `originOf?_iff_stamped`: query, stamped map and lookup agree.
-/
import Mathlib.Tactic
import ClosurePipeline.Proofs.SourceMap.Fragment

namespace ClosurePipeline.Fragment

/-! ## Pushing -/

/-- the fragment of a sequence of pushes -/
def pushAll (pushes : List (Position × Position)) : Fragment := pushes.foldl (fun f q => f.push q.1 q.2) empty

/-- of neighbours at one generated place, the last -/
def keepLast : List (Position × Position) → List (Position × Position)
  | a :: b :: rest => if a.1 = b.1 then keepLast (b :: rest) else a :: keepLast (b :: rest)
  | pairs => pairs

theorem push_concat (pairs : List (Position × Position)) (last q : Position × Position) :
    push ⟨pairs ++ [last]⟩ q.1 q.2 = ⟨pairs ++ if last.1 = q.1 then [q] else [last, q]⟩ := by
  simp only [push, List.getLast?_concat, List.dropLast_concat]
  split_ifs <;> simp

/-- one push after the other: the pair pushed last may still be replaced -/
theorem foldl_push (pushes : List (Position × Position)) :
    ∀ (pairs : List (Position × Position)) (last : Position × Position),
    pushes.foldl (fun f q => f.push q.1 q.2) (⟨pairs ++ [last]⟩ : Fragment) = ⟨pairs ++ keepLast (last :: pushes)⟩ := by
  induction pushes with
  | nil => intro pairs last; rfl
  | cons q pushes ih =>
    intro pairs last
    rw [List.foldl_cons, push_concat, keepLast]
    split_ifs with h
    · exact ih pairs q
    · have := ih (pairs ++ [last]) q
      rwa [List.append_assoc, List.append_assoc] at this

theorem pairs_pushAll (pushes : List (Position × Position)) : (pushAll pushes).pairs = keepLast pushes := by
  cases pushes with
  | nil => rfl
  | cons q pushes => exact congrArg Fragment.pairs (foldl_push pushes [] q)

/-- the first pushes at a place, up to a push at another -/
def firstRun (p : Position) (pushes : List (Position × Position)) : List (Position × Position) :=
  (pushes.dropWhile fun q => q.1 ≠ p).takeWhile fun q => q.1 = p

theorem firstRun_cons_of_ne {p : Position} {q : Position × Position} (h : q.1 ≠ p)
    (pushes : List (Position × Position)) :
    firstRun p (q :: pushes) = firstRun p pushes := by
  simp [firstRun, h]

theorem firstRun_cons_of_eq {p : Position} {q : Position × Position} (h : q.1 = p)
    (pushes : List (Position × Position)) :
    firstRun p (q :: pushes) = q :: pushes.takeWhile fun q => q.1 = p := by
  simp [firstRun, h]

/-- what is kept of the first run is its last push -/
theorem find?_keepLast (p : Position) (pushes : List (Position × Position)) :
    (keepLast pushes).find? (fun q => q.1 = p) = (firstRun p pushes).getLast? := by
  fun_induction keepLast pushes with
  | case1 a b rest h ih =>
    rw [ih]
    by_cases ha : a.1 = p
    · have hb : b.1 = p := h ▸ ha
      rw [firstRun_cons_of_eq ha, firstRun_cons_of_eq hb, List.takeWhile_cons_of_pos (by simpa using hb),
        List.getLast?_cons_cons]
    · rw [firstRun_cons_of_ne ha]
  | case2 a b rest h ih =>
    by_cases ha : a.1 = p
    · have hb : b.1 ≠ p := fun e => h (ha.trans e.symm)
      rw [firstRun_cons_of_eq ha, List.takeWhile_cons_of_neg (by simpa using hb)]
      simp [ha]
    · rw [firstRun_cons_of_ne ha, ← ih]
      simp [ha]
  | case3 pairs h =>
    rcases pairs with - | ⟨a, - | ⟨b, rest⟩⟩
    · rfl
    · by_cases ha : a.1 = p <;> simp [firstRun, ha]
    · exact absurd rfl (h a b rest)

/-- **A query is answered by the last of the first run.** -/
theorem originOf?_pushAll (pushes : List (Position × Position)) (p : Position) :
    (pushAll pushes).originOf? p = (firstRun p pushes).getLast?.map Prod.snd := by
  rw [originOf?, pairs_pushAll, find?_keepLast]

/-! ## Stamping -/

theorem filter_eq_toList_find? {segments : List Segment} (h : segments.Pairwise fun a b => a.generated ≠ b.generated)
    (p : Position) :
    segments.filter (fun s => s.generated = p) = (segments.find? fun s => s.generated = p).toList := by
  induction segments with
  | nil => rfl
  | cons s segments ih =>
    rw [List.pairwise_cons] at h
    by_cases hs : s.generated = p
    · have hrest : segments.filter (fun t => t.generated = p) = [] := by
        rw [List.filter_eq_nil_iff]
        intro t ht htp
        exact h.1 t ht (hs.trans (of_decide_eq_true htp).symm)
      simp [hs, hrest]
    · simpa [hs] using ih h.2

/-- a place is listed once in the stamped map if it is recorded, and else not at all -/
theorem filter_stamped (f : Fragment) (name : String) (p : Position) :
    (f.stamped name).segments.filter (fun s => s.generated = p) =
      ((f.originOf? p).map fun o => ⟨p, some ⟨0, o, none⟩⟩).toList := by
  have hstrict := (Draft.dropRepeats_strict (Segment.sorted_sort f.toSegments)).imp fun h => h.2
  rw [stamped_eq, filter_eq_toList_find? hstrict, find?_stamped]

/-- **Query, stamped map and lookup agree**, for pushes in any order and with any repetitions. A place is recorded as
coming from `o` exactly if the stamped map has one segment at the place, whose origin is `o` in its one source; then the
lookup of the place finds `o` under the stamped name. What is recorded is what the last of the first run of pushes at
the place said. -/
theorem originOf?_iff_stamped (pushes : List (Position × Position)) (name : String) (p o : Position) :
    ((pushAll pushes).originOf? p = some o ↔
      ∃ s, ((pushAll pushes).stamped name).segments.filter (fun s => s.generated = p) = [s] ∧
        s.origin = some ⟨0, o, none⟩) ∧
    ((pushAll pushes).stamped name).sources = [name] ∧
    ((pushAll pushes).originOf? p = some o → ((pushAll pushes).stamped name).lookup p = some ⟨name, o, none⟩) ∧
    (pushAll pushes).originOf? p = (firstRun p pushes).getLast?.map Prod.snd := by
  refine ⟨?_, by rw [stamped_eq], fun h => ?_, originOf?_pushAll pushes p⟩
  · rw [filter_stamped]
    constructor
    · intro h
      exact ⟨⟨p, some ⟨0, o, none⟩⟩, by rw [h]; rfl, rfl⟩
    · rintro ⟨s, hs, horigin⟩
      obtain ⟨o', ho, rfl⟩ := Option.map_eq_some_iff.1 (Option.toList_eq_singleton_iff.1 hs)
      simpa [ho] using horigin
  · rw [lookup_stamped, locate?_of_originOf? h]
    rfl

/-- a place pushed twice, then another, and the first place again: the second push answers -/
example :
    (pushAll [(⟨1, 0⟩, ⟨0, 0⟩), (⟨1, 0⟩, ⟨0, 4⟩), (⟨0, 2⟩, ⟨7, 7⟩), (⟨1, 0⟩, ⟨9, 9⟩)]).originOf? ⟨1, 0⟩ =
      some ⟨0, 4⟩ := by decide

end ClosurePipeline.Fragment
