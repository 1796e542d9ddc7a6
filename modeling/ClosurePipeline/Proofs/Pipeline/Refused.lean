/-
Commits that fail. A commit lists its output in the manifest and then has the host write it. Where the host refuses, the
entry stays: it names a module that no file holds, or stands in the place of the entry of the file that is still there.
Everything else is as it was, and a map that cannot be read changes nothing.

- `Pipeline.listing?`, `Manifest.listed`: the entry a commit makes, and a manifest with it;
- `Committed`, `committed_commit`: what a commit does, over any host: it reads no map, or it lists its output and writes
  it;
- `failed_commit`: the result. A failed commit leaves the pipeline as it was but for this entry, so exactly if it makes
  none or the one that is there;
- `refused_module_is_listed`: a host that takes no files, and a module of it in the manifest.
-/
import Mathlib.Tactic
import ClosurePipeline.Proofs.Pipeline.Lines
import ClosurePipeline.Proofs.Pipeline.Writes

namespace ClosurePipeline

/-- a manifest with an entry for an output, if it has one -/
def Manifest.listed (m : Manifest) (output : Path) : Option ManifestEntry → Manifest
  | none => m
  | some entry => ⟨m.entries.insert output entry⟩

/-- a manifest is the same with an entry exactly if it has it -/
theorem Manifest.listed_eq_self_iff {m : Manifest} (hm : m.entries.Sorted) (output : Path)
    (listing : Option ManifestEntry) :
    m.listed output listing = m ↔ ∀ entry ∈ listing, m.entry? output = some entry := by
  cases listing with
  | none => simp [listed]
  | some entry =>
    have hinsert := PathTable.overwriting_insert.eq_self_iff hm (output, entry)
    constructor
    · rintro h _ ⟨⟩
      exact hinsert.1 (congrArg Manifest.entries h)
    · intro h
      exact congrArg Manifest.mk (hinsert.2 (h entry rfl))

namespace Pipeline

section

variable {σ : Type} [Host σ] {p q : Pipeline σ} {path : Path} {text : String} {e : Error}

/-- the entry a commit makes for its output: maps, declaration files and outputs that are no modules have none -/
def listing? (p : Pipeline σ) (path : Path) (text : String) : Option ManifestEntry :=
  if path.extension? = some "map" then none
  else
    let output := Host.canonical p.host path
    if !p.options.googModule || output.isDeclarationFile then none
    else
      let wrapped := GoogModule.wrap p.policy p.options.es5 output text
      some ⟨wrapped.moduleName, ManifestEntry.sortNames wrapped.referenced⟩

/-- where a commit writes: a map where it is said to be, anything else at the canonical path -/
def target (p : Pipeline σ) (path : Path) : Path :=
  if path.extension? = some "map" then path else Host.canonical p.host path

/-- what a commit does -/
inductive Committed (p : Pipeline σ) (path : Path) (text : String) : Except Error Unit × Pipeline σ → Prop where
  /-- the map is not read -/
  | unread {e : Error} (hmap : path.extension? = some "map") (he : p.ledger.compose p.host path text = .error e) :
    Committed p path text (.error e, p)
  /-- the output is listed, and then the host is to write it -/
  | written {text' : String} {r : Except Error Unit} {host : σ}
      (hwrite : Host.write p.host (p.target path) text' = (r, host)) : Committed p path text
      (r, { p with host := host, manifest := p.manifest.listed (Host.canonical p.host path) (p.listing? path text) })

/-- every commit does one of the two, whatever the host says -/
theorem committed_commit (hm : p.manifest.entries.Sorted) (path : Path) (text : String) :
    Committed p path text (p.commit path text) := by
  have hwritten : ∀ text', Committed p path text ((Host.write p.host (p.target path) text').1, { p with
      host := (Host.write p.host (p.target path) text').2
      manifest := p.manifest.listed (Host.canonical p.host path) (p.listing? path text) }) := fun _ => .written rfl
  unfold commit
  by_cases hmap : path.extension? = some "map"
  · rw [if_pos hmap]
    cases hcompose : p.ledger.compose p.host path text with
    | error e => exact .unread hmap hcompose
    | ok composed =>
      rw [target, if_pos hmap, listing?, if_pos hmap] at hwritten
      exact hwritten composed
  · rw [if_neg hmap]
    rw [target, if_neg hmap, listing?, if_neg hmap] at hwritten
    dsimp only at hwritten ⊢
    split_ifs with hplain
    · rw [if_pos hplain] at hwritten
      exact hwritten text
    · rw [Manifest.addModule_addReferenced hm]
      rw [if_neg hplain] at hwritten
      exact hwritten _

/-- **A failed commit** leaves the pipeline as it was but for the entry of its output, which is in the manifest as after
a successful one. So the manifest is as it was exactly if the commit makes no entry or the one that is there. Either the
map could not be read, and then nothing has changed, or the host has refused the file. -/
theorem failed_commit (hm : p.manifest.entries.Sorted) (h : p.commit path text = (.error e, q)) : SameNotes p q ∧
    (q.manifest = p.manifest ↔ ∀ entry ∈ p.listing? path text, p.manifest.entry? (Host.canonical p.host path) =
      some entry) ∧
    (q = p ∧ path.extension? = some "map" ∧ p.ledger.compose p.host path text = .error e ∨
      q.manifest = p.manifest.listed (Host.canonical p.host path) (p.listing? path text) ∧
        ∃ text', Host.write p.host (p.target path) text' = (.error e, q.host)) := by
  have hnotes := sameNotes_commit p path text
  have hcommitted := committed_commit hm path text
  rw [h] at hnotes hcommitted
  refine ⟨hnotes, ?_⟩
  cases hcommitted with
  | unread hmap hcompose =>
    have hnone : p.listing? path text = none := by rw [listing?, if_pos hmap]
    exact ⟨by simp [hnone], .inl ⟨rfl, hmap, hcompose⟩⟩
  | written hwrite => exact ⟨Manifest.listed_eq_self_iff hm _ _, .inr ⟨rfl, _, hwrite⟩⟩

end

/-- in memory a commit fails only over a map that cannot be read, so nothing has changed -/
theorem eq_of_failed_commit {p q : Pipeline MemoryHost} (hm : p.manifest.entries.Sorted) {path : Path} {text : String}
    {e : Error} (h : p.commit path text = (.error e, q)) : q = p := by
  have hcommitted := committed_commit hm path text
  rw [h] at hcommitted
  cases hcommitted with
  | unread hmap hcompose => rfl
  | written hwrite => cases hwrite

/-- a new pipeline over a host that takes no files -/
def overBareHost : Pipeline BareHost := fresh ⟨⟩ (Policy.rules ⟨⟨"/p"⟩, none, [], []⟩) {}

theorem exists_commit_overBareHost :
    ∃ q, overBareHost.commit ⟨"/p/a.js"⟩ "var a;" = (.error (.io (.cannotWrite ⟨"/p/a.js"⟩)), q) := by
  have hcommit : (overBareHost.commit ⟨"/p/a.js"⟩ "var a;").1 = .error (.io (.cannotWrite ⟨"/p/a.js"⟩)) := by
    decide +kernel
  exact ⟨_, Prod.ext hcommit rfl⟩

theorem listing?_overBareHost : overBareHost.listing? ⟨"/p/a.js"⟩ "var a;" = some ⟨"a", []⟩ := by decide +kernel

/-- a module that the host has refused is listed, and nothing else is new -/
theorem failed_commit_overBareHost :
    ∃ q, overBareHost.commit ⟨"/p/a.js"⟩ "var a;" = (.error (.io (.cannotWrite ⟨"/p/a.js"⟩)), q) ∧
    SameNotes overBareHost q ∧ q.manifest ≠ overBareHost.manifest ∧
    q.manifest = overBareHost.manifest.listed ⟨"/p/a.js"⟩ (some ⟨"a", []⟩) := by
  obtain ⟨q, hcommit⟩ := exists_commit_overBareHost
  obtain ⟨hnotes, hsame, ⟨-, hmap, -⟩ | ⟨hlisted, -⟩⟩ := failed_commit (p := overBareHost) List.Pairwise.nil hcommit
  · exact absurd hmap (by decide)
  · rw [listing?_overBareHost] at hsame hlisted
    refine ⟨q, hcommit, hnotes, fun h => ?_, hlisted⟩
    cases hsame.1 h _ rfl

/-- **A module that the host has refused stays in the manifest.** -/
theorem refused_module_is_listed : ¬ ∀ (σ : Type) [Host σ] (p q : Pipeline σ) (path : Path) (text : String) (e : Error),
    p.commit path text = (.error e, q) → q.manifest = p.manifest ∧ SameNotes p q := by
  intro hclaim
  obtain ⟨q, hcommit⟩ := exists_commit_overBareHost
  have hempty : q.manifest.files = [] := by rw [(hclaim BareHost overBareHost q _ _ _ hcommit).1]; rfl
  have hfiles : (overBareHost.commit ⟨"/p/a.js"⟩ "var a;").2.manifest.files = [⟨"/p/a.js"⟩] := by decide +kernel
  rw [hcommit, hempty] at hfiles
  cases hfiles

end Pipeline

end ClosurePipeline
