/-
Searches that look at no pair of a file and a name twice.

A pair has steps: each is an answer, or another pair to visit. `run` goes through the steps in order, depth first, with
one list of pairs it has seen that all branches share. It is sound and, with enough fuel, complete:
- `reaches_of_run`, `reachesBy_of_follow`: what it finds is reached by steps;
- `follow_none`: a search that finds nothing leaves only dead ends behind: no answer among their steps, and every pair
  they visit seen. A pair that was cut off because it was still being looked at is seen too, so cutting hides nothing;
- `isSome_follow_iff`: from an empty list, a search finds something exactly if something is reached;
- `run_congr`, `follow_congr`: two searches whose steps agree on what can be met find the same, whatever fuel they have
  beyond enough.

Fuel is enough if it covers the pairs of a finite set, closed under visits, that are not seen yet.
-/
import Mathlib.Tactic
import ClosurePipeline.Path.Normal
import ClosurePipeline.Proofs.Path.Normal
import ClosurePipeline.Proofs.Path.Table

namespace ClosurePipeline.Search

/-- a file and a name in it -/
abbrev Pair : Type := Path × String

/-- a step of a search: an answer, or a pair to look at -/
inductive Step (R : Type) where
  | found (r : R)
  | visit (n : Pair)

variable {R : Type} {steps : Pair → List (Step R)}

/-- the pair has been seen, under some spelling of its file -/
def isSeen (seen : List Pair) (n : Pair) : Bool := seen.any fun v => decide (n.1.Same v.1) && v.2 == n.2

/-- goes through steps in order, up to the first answer -/
def follow (search : List Pair → Pair → Option R × List Pair) : List Pair → List (Step R) → Option R × List Pair
  | seen, [] => (none, seen)
  | seen, .found r :: _ => (some r, seen)
  | seen, .visit n :: rest =>
    match search seen n with
    | (some r, seen) => (some r, seen)
    | (none, seen) => follow search seen rest

/-- the first answer a pair leads to, and the pairs seen -/
def run (steps : Pair → List (Step R)) : Nat → List Pair → Pair → Option R × List Pair
  | 0, seen, _ => (none, seen)
  | fuel + 1, seen, n => if isSeen seen n then (none, seen) else follow (run steps fuel) (n :: seen) (steps n)

theorem follow_append (search : List Pair → Pair → Option R × List Pair) (xs ys : List (Step R)) : ∀ seen,
    follow search seen (xs ++ ys) =
      match follow search seen xs with
      | (some r, seen) => (some r, seen)
      | (none, seen) => follow search seen ys := by
  induction xs with
  | nil => intro seen; rfl
  | cons x xs ih =>
    intro seen
    cases x with
    | found r => rfl
    | visit n =>
      simp only [List.cons_append, follow]
      rcases search seen n with ⟨_ | r, seen'⟩
      · exact ih seen'
      · rfl

/-- looks at a name in a file, if there is one -/
def visitIn (file : Option Path) (name : String) : List (Step R) := file.toList.map fun f => .visit (f, name)

theorem mem_visitIn {file : Option Path} {name : String} {s : Step R} :
    s ∈ visitIn file name ↔ ∃ f, file = some f ∧ s = .visit (f, name) := by
  simp [visitIn, eq_comm]

theorem follow_visitIn (search : List Pair → Pair → Option R × List Pair) (seen : List Pair) (file : Option Path)
    (name : String) :
    follow search seen (visitIn file name) = match file with
      | none => (none, seen)
      | some f => search seen (f, name) := by
  cases file with
  | none => rfl
  | some f =>
    simp only [visitIn, Option.toList_some, List.map_cons, List.map_nil, follow]
    rcases search seen (f, name) with ⟨_ | r, seen'⟩ <;> rfl

/-! ## What is found is reached -/

/-- an answer that a pair leads to -/
inductive Reaches (steps : Pair → List (Step R)) : Pair → R → Prop where
  | found {n : Pair} {r : R} (h : .found r ∈ steps n) : Reaches steps n r
  | visit {n m : Pair} {r : R} (h : .visit m ∈ steps n) (hm : Reaches steps m r) : Reaches steps n r

/-- an answer that one of some steps leads to -/
def ReachesBy (steps : Pair → List (Step R)) (ss : List (Step R)) (r : R) : Prop :=
  .found r ∈ ss ∨ ∃ m, .visit m ∈ ss ∧ Reaches steps m r

theorem ReachesBy.cons {ss : List (Step R)} {r : R} (h : ReachesBy steps ss r) (s : Step R) :
    ReachesBy steps (s :: ss) r := by
  rcases h with h | ⟨m, hm, h⟩
  · exact Or.inl (List.mem_cons_of_mem s h)
  · exact Or.inr ⟨m, List.mem_cons_of_mem s hm, h⟩

theorem reaches_iff {n : Pair} {r : R} : Reaches steps n r ↔ ReachesBy steps (steps n) r := by
  constructor
  · intro h
    cases h with
    | found h => exact Or.inl h
    | visit h hm => exact Or.inr ⟨_, h, hm⟩
  · rintro (h | ⟨m, hm, h⟩)
    · exact .found h
    · exact .visit hm h

theorem reachesBy_of_follow_of {search : List Pair → Pair → Option R × List Pair}
    (hs : ∀ {seen n r seen'}, search seen n = (some r, seen') → Reaches steps n r) (ss : List (Step R)) :
    ∀ {seen r seen'}, follow search seen ss = (some r, seen') → ReachesBy steps ss r := by
  induction ss with
  | nil => intro seen r seen' h; cases h
  | cons s ss ih =>
    intro seen r seen' h
    cases s with
    | found x => cases h; exact Or.inl List.mem_cons_self
    | visit n =>
      simp only [follow] at h
      rcases hn : search seen n with ⟨_ | x, seen1⟩ <;> rw [hn] at h
      · exact (ih h).cons _
      · cases h
        exact Or.inr ⟨n, List.mem_cons_self, hs hn⟩

/-- **What a search finds is reached.** -/
theorem reaches_of_run (fuel : Nat) :
    ∀ {seen n r seen'}, run steps fuel seen n = (some r, seen') → Reaches steps n r := by
  induction fuel with
  | zero => intro seen n r seen' h; cases h
  | succ fuel ih =>
    intro seen n r seen' h
    rw [run] at h
    split_ifs at h
    · cases h
    · exact reaches_iff.2 (reachesBy_of_follow_of ih _ h)

theorem reachesBy_of_follow {fuel : Nat} {seen seen' : List Pair} {ss : List (Step R)} {r : R}
    (h : follow (run steps fuel) seen ss = (some r, seen')) : ReachesBy steps ss r :=
  reachesBy_of_follow_of (reaches_of_run fuel) ss h

/-! ## What is reached is found -/

/-- a finite set of pairs with normal files that no visit leaves -/
structure Closed (steps : Pair → List (Step R)) (U : List Pair) : Prop where
  visit : ∀ n ∈ U, ∀ m, .visit m ∈ steps n → m ∈ U
  normal : ∀ n ∈ U, n.1.normalize = n.1

/-- how many pairs are not seen yet -/
def unseen (U seen : List Pair) : Nat := (U.filter fun n => n ∉ seen).length

/-- what a search that found nothing leaves behind -/
structure Exhausted (steps : Pair → List (Step R)) (U seen seen' : List Pair) : Prop where
  grows : seen ⊆ seen'
  inside : seen' ⊆ U
  /-- new pairs are dead ends -/
  dead : ∀ n ∈ seen', n ∉ seen → (∀ r, .found r ∉ steps n) ∧ ∀ m, .visit m ∈ steps n → m ∈ seen'

theorem Exhausted.refl {U seen : List Pair} (h : seen ⊆ U) : Exhausted steps U seen seen :=
  ⟨List.Subset.refl _, h, fun _ hn hs => absurd hn hs⟩

theorem Exhausted.trans {U seen seen1 seen2 : List Pair} (h1 : Exhausted steps U seen seen1)
    (h2 : Exhausted steps U seen1 seen2) :
    Exhausted steps U seen seen2 := by
  refine ⟨fun _ hn => h2.grows (h1.grows hn), h2.inside, fun n hn hs => ?_⟩
  by_cases hn1 : n ∈ seen1
  · exact ⟨(h1.dead n hn1 hs).1, fun m hm => h2.grows ((h1.dead n hn1 hs).2 m hm)⟩
  · exact h2.dead n hn hn1

theorem isSeen_iff {U seen : List Pair} (hU : ∀ n ∈ U, n.1.normalize = n.1) (hseen : seen ⊆ U) {n : Pair} (hn : n ∈ U) :
    isSeen seen n = true ↔ n ∈ seen := by
  simp only [isSeen, List.any_eq_true, Bool.and_eq_true, decide_eq_true_eq, beq_iff_eq]
  constructor
  · rintro ⟨v, hv, hsame, hname⟩
    have hpath := Path.eq_of_same_of_normal (hU n hn) (hU v (hseen hv)) hsame
    rwa [show n = v from Prod.ext hpath hname.symm]
  · intro h
    exact ⟨n, h, Path.Same.refl _, rfl⟩

theorem unseen_le {U seen seen' : List Pair} (h : seen ⊆ seen') : unseen U seen' ≤ unseen U seen := by
  refine (List.monotone_filter_right U fun n hn => ?_).length_le
  simp only [decide_eq_true_eq] at hn ⊢
  exact fun hs => hn (h hs)

theorem unseen_cons_lt {U seen : List Pair} {n : Pair} (hn : n ∈ U) (hs : n ∉ seen) :
    unseen U (n :: seen) < unseen U seen := by
  have hfilter : (U.filter fun m => m ∉ n :: seen) = (U.filter fun m => m ∉ seen).filter fun m => m ≠ n := by
    rw [List.filter_filter]
    refine List.filter_congr fun m _ => ?_
    simp [not_or]
  unfold unseen
  rw [hfilter]
  refine List.length_filter_lt_length_iff_exists.2 ⟨n, List.mem_filter.2 ⟨hn, by simpa using hs⟩, by simp⟩

theorem follow_none_of {U : List Pair} {search : List Pair → Pair → Option R × List Pair} {fuel : Nat}
    (hs : ∀ {seen n seen'}, seen ⊆ U → n ∈ U → unseen U seen ≤ fuel → search seen n = (none, seen') →
      Exhausted steps U seen seen' ∧ n ∈ seen')
    (ss : List (Step R)) :
    ∀ {seen seen'}, seen ⊆ U → (∀ m, .visit m ∈ ss → m ∈ U) → unseen U seen ≤ fuel →
      follow search seen ss = (none, seen') → Exhausted steps U seen seen' ∧ (∀ r, .found r ∉ ss) ∧ ∀ m, .visit m ∈ ss →
        m ∈ seen' := by
  induction ss with
  | nil =>
    intro seen seen' hseen _ _ h
    cases h
    exact ⟨.refl hseen, by simp, by simp⟩
  | cons s ss ih =>
    intro seen seen' hseen hin hf h
    cases s with
    | found r => cases h
    | visit n =>
      simp only [follow] at h
      rcases hn : search seen n with ⟨_ | r, seen1⟩ <;> rw [hn] at h
      · obtain ⟨h1, hmem⟩ := hs hseen (hin n List.mem_cons_self) hf hn
        obtain ⟨h2, hfound, hvisit⟩ :=
          ih h1.inside (fun m hm => hin m (List.mem_cons_of_mem _ hm)) ((unseen_le h1.grows).trans hf) h
        refine ⟨h1.trans h2, fun r hr => ?_, fun m hm => ?_⟩
        · exact hfound r ((List.mem_cons.1 hr).resolve_left (by simp))
        · rcases List.mem_cons.1 hm with e | hm
          · cases e
            exact h2.grows hmem
          · exact hvisit m hm
      · cases h

theorem run_none {U : List Pair} (hU : Closed steps U) (fuel : Nat) :
    ∀ {seen n seen'}, seen ⊆ U → n ∈ U → unseen U seen ≤ fuel →
    run steps fuel seen n = (none, seen') → Exhausted steps U seen seen' ∧ n ∈ seen' := by
  induction fuel with
  | zero =>
    intro seen n seen' hseen hn hf h
    cases h
    refine ⟨.refl hseen, ?_⟩
    by_contra hs
    have := unseen_cons_lt hn hs
    omega
  | succ fuel ih =>
    intro seen n seen' hseen hn hf h
    rw [run] at h
    split_ifs at h with hs
    · cases h
      exact ⟨.refl hseen, (isSeen_iff hU.normal hseen hn).1 hs⟩
    · have hs' : n ∉ seen := fun hm => hs ((isSeen_iff hU.normal hseen hn).2 hm)
      have hlt := unseen_cons_lt hn hs'
      obtain ⟨h1, hfound, hvisit⟩ :=
        follow_none_of ih (steps n) (List.cons_subset.2 ⟨hn, hseen⟩) (hU.visit n hn) (by omega) h
      have hmem : n ∈ seen' := h1.grows List.mem_cons_self
      refine ⟨⟨fun m hm => h1.grows (List.mem_cons_of_mem _ hm), h1.inside, fun m hm hms => ?_⟩, hmem⟩
      -- the pair itself has just been gone through
      by_cases hmn : m = n
      · exact hmn ▸ ⟨hfound, hvisit⟩
      · exact h1.dead m hm (by simp [hmn, hms])

theorem follow_none {U : List Pair} (hU : Closed steps U) {fuel : Nat} {ss : List (Step R)} {seen seen' : List Pair}
    (hseen : seen ⊆ U) (hin : ∀ m, .visit m ∈ ss → m ∈ U) (hf : unseen U seen ≤ fuel)
    (h : follow (run steps fuel) seen ss = (none, seen')) :
    Exhausted steps U seen seen' ∧ (∀ r, .found r ∉ ss) ∧ ∀ m, .visit m ∈ ss → m ∈ seen' :=
  follow_none_of (run_none hU fuel) ss hseen hin hf h

/-- a set of dead ends reaches nothing -/
theorem not_reaches_of_exhausted {U seen : List Pair} (h : Exhausted steps U [] seen) {n : Pair} {r : R}
    (hr : Reaches steps n r) : n ∉ seen := by
  induction hr with
  | found hf => exact fun hn => (h.dead _ hn List.not_mem_nil).1 _ hf
  | visit hv _ ih => exact fun hn => ih ((h.dead _ hn List.not_mem_nil).2 _ hv)

/-- **A search finds something exactly if something is reached.** -/
theorem isSome_follow_iff {U : List Pair} (hU : Closed steps U) {fuel : Nat} (hf : U.length ≤ fuel) {ss : List (Step R)}
    (hin : ∀ m, .visit m ∈ ss → m ∈ U) :
    (follow (run steps fuel) [] ss).1.isSome = true ↔ ∃ r, ReachesBy steps ss r := by
  rcases h : follow (run steps fuel) [] ss with ⟨_ | r, seen⟩
  · have hunseen : unseen U [] ≤ fuel := (List.length_filter_le _ _).trans hf
    obtain ⟨hex, hfound, hvisit⟩ := follow_none hU (List.nil_subset U) hin hunseen h
    refine ⟨fun hc => by simp at hc, ?_⟩
    rintro ⟨r, hr | ⟨m, hm, hr⟩⟩
    · exact absurd hr (hfound r)
    · exact absurd (hvisit m hm) (not_reaches_of_exhausted hex hr)
  · exact ⟨fun _ => ⟨r, reachesBy_of_follow h⟩, fun _ => rfl⟩

/-! ## Searches that agree -/

theorem follow_congr_of {U : List Pair} {search search' : List Pair → Pair → Option R × List Pair} (fuel : Nat)
    (hsame : ∀ {seen n}, seen ⊆ U → n ∈ U → unseen U seen ≤ fuel → search seen n = search' seen n)
    (hnone : ∀ {seen n seen'}, seen ⊆ U → n ∈ U → unseen U seen ≤ fuel → search seen n = (none, seen') →
      seen ⊆ seen' ∧ seen' ⊆ U)
    (ss : List (Step R)) : ∀ {seen}, seen ⊆ U → (∀ m, .visit m ∈ ss → m ∈ U) → unseen U seen ≤ fuel →
    follow search seen ss = follow search' seen ss := by
  induction ss with
  | nil => intro seen _ _ _; rfl
  | cons s ss ih =>
    intro seen hseen hin hf
    cases s with
    | found r => rfl
    | visit n =>
      have hn : n ∈ U := hin n List.mem_cons_self
      simp only [follow]
      rw [← hsame hseen hn hf]
      rcases hr : search seen n with ⟨_ | r, seen1⟩
      · obtain ⟨hgrows, hinside⟩ := hnone hseen hn hf hr
        exact ih hinside (fun m hm => hin m (List.mem_cons_of_mem _ hm)) ((unseen_le hgrows).trans hf)
      · rfl

/-- **Steps that agree on what can be met lead to one search,** and fuel beyond what is unseen does not matter. -/
theorem run_congr {steps' : Pair → List (Step R)} {U : List Pair} (hU : Closed steps U)
    (hsteps : ∀ n ∈ U, steps n = steps' n) (fuel : Nat) :
    ∀ {fuel' seen n}, seen ⊆ U → n ∈ U → unseen U seen ≤ fuel → unseen U seen ≤ fuel' →
      run steps fuel seen n = run steps' fuel' seen n := by
  have hstop : ∀ {seen n}, seen ⊆ U → n ∈ U → unseen U seen ≤ 0 → isSeen seen n = true := by
    intro seen n hseen hn hf
    rw [isSeen_iff hU.normal hseen hn]
    by_contra hs
    have := unseen_cons_lt hn hs
    omega
  induction fuel with
  | zero =>
    intro fuel' seen n hseen hn hf _
    cases fuel' with
    | zero => rfl
    | succ fuel' => rw [run, run, if_pos (hstop hseen hn hf)]
  | succ fuel ih =>
    intro fuel' seen n hseen hn hf hf'
    cases fuel' with
    | zero => rw [run, run, if_pos (hstop hseen hn hf')]
    | succ fuel' =>
      rw [run, run, ← hsteps n hn]
      split_ifs with hs
      · rfl
      · have hs' : n ∉ seen := fun hm => hs ((isSeen_iff hU.normal hseen hn).2 hm)
        have hlt := unseen_cons_lt hn hs'
        refine follow_congr_of (min fuel fuel') ?_ ?_ (steps n) (List.cons_subset.2 ⟨hn, hseen⟩)
          (hU.visit n hn) (by omega)
        · intro seen1 m hseen1 hm hle
          exact ih hseen1 hm (by omega) (by omega)
        · intro seen1 m seen2 hseen1 hm hle h
          have hex := (run_none hU fuel hseen1 hm (by omega) h).1
          exact ⟨hex.grows, hex.inside⟩

theorem follow_congr {steps' : Pair → List (Step R)} {U : List Pair} (hU : Closed steps U)
    (hsteps : ∀ n ∈ U, steps n = steps' n) {fuel fuel' : Nat} (hf : U.length ≤ fuel) (hf' : U.length ≤ fuel')
    {ss : List (Step R)} (hin : ∀ m, .visit m ∈ ss → m ∈ U) :
    follow (run steps fuel) [] ss = follow (run steps' fuel') [] ss := by
  have hunseen : unseen U [] ≤ U.length := List.length_filter_le _ _
  refine follow_congr_of U.length ?_ ?_ ss (List.nil_subset U) hin hunseen
  · intro seen n hseen hn hle
    exact run_congr hU hsteps fuel hseen hn (by omega) (by omega)
  · intro seen n seen' hseen hn hle h
    have hex := (run_none hU fuel hseen hn (by omega) h).1
    exact ⟨hex.grows, hex.inside⟩

end ClosurePipeline.Search
