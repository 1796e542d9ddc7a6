/-
What a pass writes down about a unit, as a value. A pass looks at the rules, at the failures so far and at the symbols
of the unit; what it then does to the pipeline is one note. So passes over units are notes taken in order, whatever else
the pipeline holds.

- `Note`, `Pipeline.note`: a note and how it is taken;
- `outcome`, `runOnUnit_eq`: a pass on a unit takes the note of its outcome;
- `exists_notes`: passes over units take the same notes on every pipeline with the same rules and failures, in contexts
  that say the same of the units;
- `externs_replay`, `fragments_replay`: notes write over what is there, so notes taken twice in a row leave what they
  left the first time.
-/
import Mathlib.Tactic
import ClosurePipeline.Proofs.Pipeline.Passes

namespace ClosurePipeline

/-- what a pass writes down about a file -/
inductive Note where
  /-- the pass failed on it -/
  | failed (pass : Pass) (file : Path) (fault : Pass.Fault)
  /-- the pass went through it -/
  | done (pass : Pass) (file : Path) (fragment : Option Fragment) (diagnostics : List Diagnostic)
      (externs : Option String)

namespace Note

/-- the failure a note is about -/
def failure? : Note → Option PassFailure
  | failed pass file fault => some ⟨pass, file, fault⟩
  | done .. => none

/-- the externs in a note, with their file -/
def externs? : Note → Option (Path × String)
  | failed .. => none
  | done _ file _ _ externs => externs.map fun text => (file, text)

/-- the diagnostics in a note -/
def said : Note → List Diagnostic
  | failed .. => []
  | done _ _ _ diagnostics _ => diagnostics

/-- the fragment that a note sets for a pass on a file, or that it takes away -/
def fragment? : Note → Path → Pass → Option (Option Fragment)
  | failed _ file _, path, _ => if path.Same file then some none else none
  | done pass file fragment _ _, path, pass' => if path.Same file ∧ pass' = pass then some fragment else none

end Note

namespace Pipeline

variable {σ : Type}

/-- takes a note -/
def note (p : Pipeline σ) : Note → Pipeline σ
  | .failed pass file fault =>
    { p with ledger := p.ledger.forgetAll file, failures := p.failures ++ [⟨pass, file, fault⟩] }
  | .done pass file fragment diagnostics externs => { p with
      ledger := match fragment with
        | some f => p.ledger.record file pass f
        | none => p.ledger.forget file pass
      diagnostics := p.diagnostics ++ diagnostics
      externs := match externs with
        | some text => setExterns p.externs file text
        | none => p.externs }

/-- what becomes of a unit in a pass: the note about it, if it is not left out, and the unit that replaces it -/
def outcome (pass : Pass) (cx : Pass.Context) (skipped failed : Bool) (unit : SourceUnit) :
    Option Note × Option SourceUnit :=
  if skipped then (some (.done pass unit.path none [] none), none)
  else if failed then (none, none)
  else
    match applyPass pass cx unit with
    | .error fault => (some (.failed pass unit.path fault), none)
    | .ok out =>
      if out.text = unit.text then (some (.done pass unit.path none out.diagnostics out.externs), none)
      else (some (.done pass unit.path out.fragment out.diagnostics out.externs), some (.parse unit.path out.text))

/-- **A pass on a unit takes the note of its outcome.** -/
theorem runOnUnit_eq (pass : Pass) (cx : Pass.Context) (p : Pipeline σ) (unit : SourceUnit) :
    runOnUnit pass cx p unit =
      ((outcome pass cx (p.policy.skips unit.path) (p.hasFailed unit.path) unit).1.toList.foldl note p,
      (outcome pass cx (p.policy.skips unit.path) (p.hasFailed unit.path) unit).2) := by
  unfold runOnUnit outcome
  split_ifs
  · simp [note]
  · rfl
  · cases applyPass pass cx unit with
    | error fault => rfl
    | ok out =>
      unfold keepOutput
      dsimp only
      split_ifs <;> rfl

/-! ## Notes about many units -/

theorem failures_note (p : Pipeline σ) (n : Note) : (p.note n).failures = p.failures ++ n.failure?.toList := by
  cases n with
  | failed pass file fault => rfl
  | done pass file fragment diagnostics externs => exact (List.append_nil _).symm

theorem diagnostics_note (p : Pipeline σ) (n : Note) : (p.note n).diagnostics = p.diagnostics ++ n.said := by
  cases n with
  | failed pass file fault => exact (List.append_nil _).symm
  | done pass file fragment diagnostics externs => rfl

theorem externs_note (p : Pipeline σ) (n : Note) : (p.note n).externs = match n.externs? with
    | some (file, text) => setExterns p.externs file text
    | none => p.externs := by
  cases n with
  | failed pass file fault => rfl
  | done pass file fragment diagnostics externs => cases externs <;> rfl

theorem sameSetup_notes (notes : List Note) : ∀ p : Pipeline σ, SameSetup p (notes.foldl note p) := by
  induction notes with
  | nil => intro p; exact SameSetup.refl p
  | cons n notes ih =>
    intro p
    refine SameSetup.trans ?_ (ih (p.note n))
    cases n <;> exact ⟨rfl, rfl, rfl, rfl⟩

theorem failures_notes (notes : List Note) :
    ∀ p : Pipeline σ, (notes.foldl note p).failures = p.failures ++ notes.filterMap Note.failure? := by
  induction notes with
  | nil => intro p; simp
  | cons n notes ih =>
    intro p
    rw [List.foldl_cons, ih, failures_note, List.filterMap_cons, List.append_assoc]
    cases n.failure? <;> rfl

theorem diagnostics_notes (notes : List Note) :
    ∀ p : Pipeline σ, (notes.foldl note p).diagnostics = p.diagnostics ++ notes.flatMap Note.said := by
  induction notes with
  | nil => intro p; simp
  | cons n notes ih =>
    intro p
    rw [List.foldl_cons, ih, diagnostics_note, List.flatMap_cons, List.append_assoc]

theorem hasFailed_eq {p q : Pipeline σ} (h : q.failures = p.failures) (file : Path) :
    q.hasFailed file = p.hasFailed file := by
  rw [hasFailed, hasFailed, h]

/-- **Passes over units take the same notes,** whatever else the pipeline holds -/
theorem exists_notes {pass : Pass} {cx cx' : Pass.Context} (units : List SourceUnit) :
    (∀ u ∈ units, applyPass pass cx u = applyPass pass cx' u) → ∀ (policy : Rules) (failures : List PassFailure),
      ∃ (notes : List Note) (replaced : List SourceUnit), ∀ p : Pipeline σ, p.policy = policy → p.failures = failures →
        runOnUnits pass cx p units = (notes.foldl note p, replaced) ∧
        runOnUnits pass cx' p units = (notes.foldl note p, replaced) := by
  induction units with
  | nil => intro _ policy failures; exact ⟨[], [], fun p _ _ => ⟨rfl, rfl⟩⟩
  | cons unit units ih =>
    intro hsame policy failures
    -- the outcome is the same in both contexts and needs rules and failures only
    let o := outcome pass cx (policy.skips unit.path) (failures.any fun f => decide (f.file.Same unit.path)) unit
    have hfirst : ∀ p : Pipeline σ, p.policy = policy → p.failures = failures →
        runOnUnit pass cx p unit = (o.1.toList.foldl note p, o.2) ∧
        runOnUnit pass cx' p unit = (o.1.toList.foldl note p, o.2) := by
      intro p hpolicy hfailures
      have houtcome : outcome pass cx' (p.policy.skips unit.path) (p.hasFailed unit.path) unit = o := by
        simp only [o, outcome, hasFailed, hpolicy, hfailures, hsame unit List.mem_cons_self]
      refine ⟨?_, ?_⟩
      · rw [runOnUnit_eq, hasFailed, hpolicy, hfailures]
      · rw [runOnUnit_eq, houtcome]
    obtain ⟨notes, replaced, hrest⟩ :=
      ih (fun u hu => hsame u (List.mem_cons_of_mem _ hu)) policy (failures ++ o.1.toList.filterMap Note.failure?)
    refine ⟨o.1.toList ++ notes, o.2.toList ++ replaced, fun p hpolicy hfailures => ?_⟩
    obtain ⟨h1, h2⟩ := hfirst p hpolicy hfailures
    obtain ⟨h3, h4⟩ :=
      hrest (o.1.toList.foldl note p) ((sameSetup_notes _ p).policy.trans hpolicy) (by rw [failures_notes, hfailures])
    rw [runOnUnits_cons, runOnUnits_cons, h1, h2, List.foldl_append]
    exact ⟨by rw [h3], by rw [h4]⟩

/-! ## Externs -/

/-- the externs of a path -/
def externText? (externs : List (Path × String)) (path : Path) : Option String :=
  (⟨externs⟩ : PathTable String).get? path

/-- each path has one entry -/
def DistinctFiles (externs : List (Path × String)) : Prop := (⟨externs⟩ : PathTable String).Distinct

theorem setExterns_of_any {t : PathTable String} {file : Path} {text : String}
    (h : (t.entries.any fun d => decide (d.1.Same file)) = true) :
    (⟨setExterns t.entries file text⟩ : PathTable String) = t.modify file fun _ => text := by
  rw [setExterns, if_pos h, PathTable.modify]
  congr 1
  refine List.map_congr_left fun d _ => ?_
  simp only [show d.1.Same file ↔ file.Same d.1 from ⟨Path.Same.symm, Path.Same.symm⟩]

/-- setting the externs of a file writes over them -/
theorem overwriting_setExterns :
    PathTable.Overwriting PathTable.Distinct fun (t : PathTable String) e => ⟨setExterns t.entries e.1 e.2⟩ where
  distinct _ ht := ht
  keeps t e ht := by
    unfold setExterns
    split_ifs with hany
    · refine List.pairwise_map.2 (ht.imp fun {a b} hab => ?_)
      split_ifs <;> exact hab
    · refine List.pairwise_append.2 ⟨ht, List.pairwise_singleton _ _, fun a ha b hb hs => ?_⟩
      rw [List.mem_singleton.1 hb] at hs
      exact hany (List.any_eq_true.2 ⟨a, ha, by simpa using hs⟩)
  get? t e k := by
    by_cases hany : (t.entries.any fun d => decide (d.1.Same e.1)) = true
    · rw [setExterns_of_any hany, PathTable.get?_modify]
      split_ifs with hs
      · obtain ⟨d, hd, hde⟩ := List.any_eq_true.1 hany
        have hne : t.get? k ≠ none :=
          fun hn => PathTable.get?_eq_none_iff.1 hn d hd (hs.trans (of_decide_eq_true hde).symm)
        obtain ⟨w, hw⟩ := Option.ne_none_iff_exists'.1 hne
        rw [hw, Option.map_some]
      · rfl
    · rw [setExterns, if_neg hany, PathTable.get?_eq, PathTable.get?_eq, List.find?_append]
      split_ifs with hs
      · have hnone : t.entries.find? (fun d => decide (k.Same d.1)) = none := by
          rw [List.find?_eq_none]
          intro d hd hc
          exact hany (List.any_eq_true.2 ⟨d, hd, by simpa using (of_decide_eq_true hc).symm.trans hs⟩)
        simp [hnone, hs]
      · simp [hs]
  keys t e ht hk := by
    have hany : (t.entries.any fun d => decide (d.1.Same e.1)) = true := by
      obtain ⟨w, hw⟩ := Option.isSome_iff_exists.1 hk
      obtain ⟨d, hd, -⟩ := Option.map_eq_some_iff.1 hw
      have hs : e.1.Same d.1 := by simpa using List.find?_some hd
      exact List.any_eq_true.2 ⟨d, List.mem_of_find?_eq_some hd, by simpa using hs.symm⟩
    rw [setExterns_of_any hany]
    exact PathTable.keys_modify t e.1 _

theorem DistinctFiles.externText?_eq_some_iff {externs : List (Path × String)} (h : DistinctFiles externs) {path : Path}
    {text : String} :
    externText? externs path = some text ↔ ∃ k, (k, text) ∈ externs ∧ path.Same k := h.get?_eq_some_iff

/-! ## Notes taken twice -/

theorem externs_notes (notes : List Note) : ∀ p : Pipeline σ, (⟨(notes.foldl note p).externs⟩ : PathTable String) =
    (notes.filterMap Note.externs?).foldl (fun t e => ⟨setExterns t.entries e.1 e.2⟩) ⟨p.externs⟩ := by
  induction notes with
  | nil => intro p; rfl
  | cons n notes ih =>
    intro p
    rw [List.foldl_cons, ih, externs_note, List.filterMap_cons]
    cases n.externs? <;> rfl

theorem DistinctFiles.notes {p : Pipeline σ} (h : DistinctFiles p.externs) (notes : List Note) :
    DistinctFiles (notes.foldl note p).externs := by
  rw [DistinctFiles, externs_notes]
  exact overwriting_setExterns.form_foldl _ h

/-- taken on what they have made, notes keep the externs -/
theorem externs_replay {p q : Pipeline σ} (h : DistinctFiles p.externs) (notes : List Note)
    (hq : q.externs = (notes.foldl note p).externs) :
    (notes.foldl note q).externs = (notes.foldl note p).externs := by
  have htwice := overwriting_setExterns.foldl_twice (notes.filterMap Note.externs?) h
  rw [← externs_notes, ← hq, ← externs_notes, hq] at htwice
  exact congrArg PathTable.entries htwice

theorem fragment?_note (p : Pipeline σ) (n : Note) (path : Path) (pass : Pass) :
    (p.note n).ledger.fragment? path pass = (n.fragment? path pass).getD (p.ledger.fragment? path pass) := by
  cases n with
  | failed pass' file fault =>
    rw [note, Ledger.fragment?_forgetAll, Note.fragment?]
    split_ifs <;> rfl
  | done pass' file fragment diagnostics externs =>
    cases fragment with
    | none =>
      refine (Ledger.fragment?_forget p.ledger file path pass' pass).trans ?_
      rw [Note.fragment?]
      split_ifs <;> rfl
    | some f =>
      refine (Ledger.fragment?_record p.ledger file path pass' pass f).trans ?_
      rw [Note.fragment?]
      split_ifs <;> rfl

theorem exists_last_fragment (path : Path) (pass : Pass) (notes : List Note) :
    ∃ last : Option (Option Fragment), ∀ p : Pipeline σ,
    (notes.foldl note p).ledger.fragment? path pass = last.getD (p.ledger.fragment? path pass) := by
  induction notes with
  | nil => exact ⟨none, fun _ => rfl⟩
  | cons n notes ih =>
    obtain ⟨last, hlast⟩ := ih
    refine ⟨last.or (n.fragment? path pass), fun p => ?_⟩
    rw [List.foldl_cons, hlast, fragment?_note]
    cases last <;> rfl

theorem ordered_notes (notes : List Note) :
    ∀ {p : Pipeline σ}, p.ledger.Ordered → (notes.foldl note p).ledger.Ordered := by
  induction notes with
  | nil => intro p h; exact h
  | cons n notes ih =>
    intro p h
    apply ih
    cases n with
    | failed pass file fault => exact h.forgetAll _
    | done pass file fragment diagnostics externs =>
      cases fragment with
      | none => exact h.forget _ _
      | some f => exact h.record _ _ _

/-- taken on what they have made, notes keep every fragment -/
theorem fragments_replay {p q : Pipeline σ} (h : p.ledger.Ordered) (notes : List Note)
    (hq : q.ledger = (notes.foldl note p).ledger) (path : Path) :
    (notes.foldl note q).ledger.get path = (notes.foldl note p).ledger.get path := by
  have honce : q.ledger.Ordered := hq ▸ ordered_notes notes h
  rw [Ledger.get_eq_of_inOrder (ordered_notes notes honce path), Ledger.get_eq_of_inOrder (ordered_notes notes h path)]
  congr 1
  funext pass
  obtain ⟨last, hlast⟩ := exists_last_fragment path pass notes (σ := σ)
  rw [hlast q, hq, hlast p]
  cases last <;> rfl

end Pipeline

end ClosurePipeline
