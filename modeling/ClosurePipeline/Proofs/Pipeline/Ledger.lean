/-
The ledger as a table of fragments by unit and pass.

- `Ledger.fragment?`: the fragment a pass left for a unit; one equation for each operation says what it becomes;
- `Ledger.Built`: the ledgers that `record`, `forget` and `forgetAll` make out of the empty one, fragments having 32-bit
  places;
- `Ledger.Ordered`, `get_eq_of_inOrder`: the fragments of a unit are those of the passes, in pass order and one for
  each.
-/
import Mathlib.Tactic
import ClosurePipeline.Pipeline.Ledger
import ClosurePipeline.Proofs.Path.Table
import ClosurePipeline.Proofs.SourceMap.Fragment

namespace ClosurePipeline.Ledger

/-- the fragment a pass left for a unit -/
def fragment? (l : Ledger) (path : Path) (pass : Pass) : Option Fragment :=
  ((l.get path).find? fun e => e.1 = pass).map Prod.snd

/-! ## The operations -/

theorem get_congr (l : Ledger) {path path' : Path} (h : path.Same path') : l.get path = l.get path' := by
  rw [get, get, PathTable.get?_congr _ h]

theorem get_record (l : Ledger) (path path' : Path) (pass : Pass) (f : Fragment) :
    (l.record path pass f).get path' = if path'.Same path then setFragment pass f (l.get path') else l.get path' := by
  rw [record, get, PathTable.get?_insert]
  split_ifs with h
  · rw [Option.getD_some, get_congr l h]
  · rfl

theorem get_forgetAll (l : Ledger) (path path' : Path) :
    (l.forgetAll path).get path' = if path'.Same path then [] else l.get path' := by
  rw [forgetAll, get, PathTable.get?_erase]
  split_ifs <;> rfl

theorem get_forget (l : Ledger) (path path' : Path) (pass : Pass) :
    (l.forget path pass).get path' = if path'.Same path then (l.get path').filter (fun e => e.1 ≠ pass)
      else l.get path' := by
  unfold forget
  cases hget : l.entries.get? path with
  | none =>
    split_ifs with h
    · rw [get_congr l h, get, hget]
      rfl
    · rfl
  | some fragments =>
    have hpath : l.get path = fragments := by rw [get, hget, Option.getD_some]
    have hleft : ∀ h :
        path'.Same path, (l.get path').filter (fun e => e.1 ≠ pass) = fragments.filter fun e => e.1 ≠ pass := by
      intro h
      rw [get_congr l h, hpath]
    simp only
    split
    · rename_i hnil
      rw [get_forgetAll]
      split_ifs with h
      · rw [hleft h, hnil]
      · rfl
    · rw [get, PathTable.get?_insert]
      split_ifs with h
      · rw [hleft h, Option.getD_some]
      · rfl

theorem find?_setFragment_self (pass : Pass) (f : Fragment) (es : List (Pass × Fragment)) :
    (setFragment pass f es).find? (fun e => e.1 = pass) = some (pass, f) := by
  induction es with
  | nil => simp [setFragment]
  | cons e es ih =>
    unfold setFragment
    split_ifs with h1 h2
    · simp
    · simp
    · rw [List.find?_cons_of_neg (by simp [h1]), ih]

theorem find?_setFragment_of_ne {pass pass' : Pass} (h : pass' ≠ pass) (f : Fragment) (es : List (Pass × Fragment)) :
    (setFragment pass f es).find? (fun e => e.1 = pass') = es.find? fun e => e.1 = pass' := by
  induction es with
  | nil => simp [setFragment, h.symm]
  | cons e es ih =>
    unfold setFragment
    split_ifs with h1 h2
    · simp [h1, h.symm]
    · simp [h.symm]
    · rw [List.find?_cons, List.find?_cons, ih]

/-- what a pass left, once a fragment is recorded -/
theorem fragment?_record (l : Ledger) (path path' : Path) (pass pass' : Pass) (f : Fragment) :
    (l.record path pass f).fragment? path' pass' = if path'.Same path ∧ pass' = pass then some f
      else l.fragment? path' pass' := by
  rw [fragment?, get_record]
  by_cases h : path'.Same path
  · rw [if_pos h]
    by_cases hp : pass' = pass
    · rw [hp, find?_setFragment_self, if_pos ⟨h, rfl⟩]
      rfl
    · rw [find?_setFragment_of_ne hp, if_neg fun hc => hp hc.2]
      rfl
  · rw [if_neg h, if_neg fun hc => h hc.1]
    rfl

theorem fragment?_forgetAll (l : Ledger) (path path' : Path) (pass : Pass) :
    (l.forgetAll path).fragment? path' pass = if path'.Same path then none else l.fragment? path' pass := by
  rw [fragment?, get_forgetAll]
  split_ifs <;> rfl

theorem fragment?_forget (l : Ledger) (path path' : Path) (pass pass' : Pass) :
    (l.forget path pass).fragment? path' pass' = if path'.Same path ∧ pass' = pass then none
      else l.fragment? path' pass' := by
  rw [fragment?, get_forget]
  by_cases h : path'.Same path
  · rw [if_pos h, List.find?_filter]
    by_cases hp : pass' = pass
    · rw [if_pos ⟨h, hp⟩, Option.map_eq_none_iff, List.find?_eq_none]
      intro e _
      simp [hp]
    · rw [if_neg fun hc => hp hc.2, fragment?]
      congr 2
      funext e
      by_cases he : e.1 = pass'
      · simp [he, hp]
      · simp [he]
  · rw [if_neg h, if_neg fun hc => h hc.1]
    rfl

/-! ## Ledgers that are built -/

/-- a ledger made by the operations out of the empty one -/
inductive Built : Ledger → Prop where
  | empty : Built {}
  | record {l : Ledger} (h : Built l) (path : Path) (pass : Pass) {f : Fragment} (hf : f.Fits) :
    Built (l.record path pass f)
  | forget {l : Ledger} (h : Built l) (path : Path) (pass : Pass) : Built (l.forget path pass)
  | forgetAll {l : Ledger} (h : Built l) (path : Path) : Built (l.forgetAll path)

/-- fragments in pass order, one for each pass -/
def InOrder (es : List (Pass × Fragment)) : Prop := es.Pairwise fun a b => a.1.rank < b.1.rank

theorem mem_setFragment {pass : Pass} {f : Fragment} {es : List (Pass × Fragment)} {e : Pass × Fragment}
    (h : e ∈ setFragment pass f es) :
    e = (pass, f) ∨ e ∈ es := by
  induction es with
  | nil => exact Or.inl (List.mem_singleton.1 h)
  | cons d es ih =>
    unfold setFragment at h
    split_ifs at h with h1 h2
    · exact (List.mem_cons.1 h).imp id (List.mem_cons_of_mem d)
    · exact List.mem_cons.1 h
    · rcases List.mem_cons.1 h with rfl | h
      · exact Or.inr List.mem_cons_self
      · exact (ih h).imp id (List.mem_cons_of_mem d)

theorem InOrder.setFragment {es : List (Pass × Fragment)} (h : InOrder es) (pass : Pass) (f : Fragment) :
    InOrder (setFragment pass f es) := by
  induction es with
  | nil => exact List.pairwise_singleton _ _
  | cons e es ih =>
    rw [InOrder, List.pairwise_cons] at h
    unfold Ledger.setFragment
    split_ifs with h1 h2
    · exact List.pairwise_cons.2 ⟨fun d hd => h1 ▸ h.1 d hd, h.2⟩
    · refine List.pairwise_cons.2 ⟨fun d hd => ?_, List.pairwise_cons.2 h⟩
      rcases List.mem_cons.1 hd with rfl | hd
      · exact h2
      · exact Nat.lt_trans h2 (h.1 d hd)
    · -- `e` runs before `pass`, and before all that follows it
      have hlt : e.1.rank < pass.rank := by
        have hne : e.1.rank ≠ pass.rank := by
          intro hr
          exact h1 (by cases he : e.1 <;> cases hp : pass <;> simp_all [Pass.rank])
        omega
      refine List.pairwise_cons.2 ⟨fun d hd => ?_, ih h.2⟩
      rcases mem_setFragment hd with rfl | hd
      · exact hlt
      · exact h.1 d hd

/-- a ledger whose fragments are in pass order for every unit -/
def Ordered (l : Ledger) : Prop := ∀ path, InOrder (l.get path)

theorem ordered_empty : Ordered {} := fun _ => List.Pairwise.nil

theorem Ordered.record {l : Ledger} (h : l.Ordered) (path : Path) (pass : Pass) (f : Fragment) :
    (l.record path pass f).Ordered := by
  intro path'
  rw [get_record]
  split_ifs
  · exact (h path').setFragment pass f
  · exact h path'

theorem Ordered.forget {l : Ledger} (h : l.Ordered) (path : Path) (pass : Pass) : (l.forget path pass).Ordered := by
  intro path'
  rw [get_forget]
  split_ifs
  · exact (h path').filter _
  · exact h path'

theorem Ordered.forgetAll {l : Ledger} (h : l.Ordered) (path : Path) : (l.forgetAll path).Ordered := by
  intro path'
  rw [get_forgetAll]
  split_ifs
  · exact List.Pairwise.nil
  · exact h path'

theorem Built.ordered {l : Ledger} (h : l.Built) : l.Ordered := by
  induction h with
  | empty => exact ordered_empty
  | record _ path pass _ ih => exact ih.record path pass _
  | forget _ path pass ih => exact ih.forget path pass
  | forgetAll _ path ih => exact ih.forgetAll path

theorem Built.fits {l : Ledger} (h : l.Built) (path : Path) : ∀ e ∈ l.get path, e.2.Fits := by
  induction h with
  | empty => intro e he; cases he
  | record _ path' pass hf ih =>
    rw [get_record]
    split_ifs
    · intro e he
      rcases mem_setFragment he with rfl | he
      · exact hf
      · exact ih e he
    · exact ih
  | forget _ path' pass ih =>
    rw [get_forget]
    split_ifs
    · exact fun e he => ih e (List.mem_filter.1 he).1
    · exact ih
  | forgetAll _ path' ih =>
    rw [get_forgetAll]
    split_ifs
    · intro e he
      cases he
    · exact ih

/-- the fragments of a unit are those of the passes, in pass order -/
theorem get_eq_of_inOrder {l : Ledger} {path : Path} (h : InOrder (l.get path)) :
    l.get path = Pass.all.filterMap fun pass => (l.fragment? path pass).map fun f => (pass, f) := by
  unfold fragment?
  generalize l.get path = es at h
  match es, h with
  | [], _ => rfl
  | [⟨p, f⟩], _ => cases p <;> rfl
  | [⟨p, f⟩, ⟨q, g⟩], h =>
    have hlt : p.rank < q.rank := (List.pairwise_cons.1 h).1 _ List.mem_cons_self
    cases p <;> cases q
    · exact absurd hlt (by decide)
    · rfl
    · exact absurd hlt (by decide)
    · exact absurd hlt (by decide)
  | ⟨p, f⟩ :: ⟨q, g⟩ :: ⟨r, k⟩ :: es, h =>
    -- there are only two passes
    have h1 : p.rank < q.rank := (List.pairwise_cons.1 h).1 _ List.mem_cons_self
    have h2 : q.rank < r.rank := (List.pairwise_cons.1 (List.pairwise_cons.1 h).2).1 _ List.mem_cons_self
    cases p <;> cases q <;> cases r <;> simp [Pass.rank] at h1 h2

end ClosurePipeline.Ledger
