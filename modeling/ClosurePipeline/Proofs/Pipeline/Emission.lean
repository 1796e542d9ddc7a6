/-
Emission into a host in memory. Emitting units writes outputs and maps, and nothing the passes left is touched.

- `Written`: what any writes make of a pipeline, through it or to the host below it. The emitter does no more
  (`written_emitAll`);
- `Emitted`: the units that are written: no pass failed on them, and they are no declaration files;
- `emit_spec`: one unit: its map is in place, and no other file has changed;
- `emitAll_spec`: all units: at the output of a unit stands the composed map of a unit with that output (`Mapped`).
-/
import Mathlib.Tactic
import ClosurePipeline.Pipeline.Basic
import ClosurePipeline.Proofs.Host.Memory
import ClosurePipeline.Proofs.Output.Emitter

namespace ClosurePipeline

open Emitter (mapPath baseMap exists_outputs)

namespace Pipeline

section

variable {σ : Type}

/-- what the passes left is the same -/
structure SameNotes (p q : Pipeline σ) : Prop where
  policy : q.policy = p.policy
  options : q.options = p.options
  externs : q.externs = p.externs
  ledger : q.ledger = p.ledger
  diagnostics : q.diagnostics = p.diagnostics
  failures : q.failures = p.failures

theorem SameNotes.refl (p : Pipeline σ) : SameNotes p p := ⟨rfl, rfl, rfl, rfl, rfl, rfl⟩

theorem SameNotes.trans {p q r : Pipeline σ} (h1 : SameNotes p q) (h2 : SameNotes q r) : SameNotes p r :=
  ⟨h2.policy.trans h1.policy, h2.options.trans h1.options, h2.externs.trans h1.externs, h2.ledger.trans h1.ledger,
    h2.diagnostics.trans h1.diagnostics, h2.failures.trans h1.failures⟩

theorem SameNotes.hasFailed {p q : Pipeline σ} (h : SameNotes p q) (path : Path) :
    q.hasFailed path = p.hasFailed path := by
  rw [Pipeline.hasFailed, h.failures]
  rfl

variable [Host σ]

theorem sameNotes_commit (p : Pipeline σ) (path : Path) (text : String) : SameNotes p (p.commit path text).2 := by
  unfold commit
  dsimp only
  split_ifs
  · split <;> exact ⟨rfl, rfl, rfl, rfl, rfl, rfl⟩
  · exact ⟨rfl, rfl, rfl, rfl, rfl, rfl⟩
  · exact ⟨rfl, rfl, rfl, rfl, rfl, rfl⟩

/-- what writes make of a pipeline, to outputs or to files of the wrapped host -/
inductive Written (p : Pipeline σ) : Pipeline σ → Prop where
  | none : Written p p
  | output {q : Pipeline σ} (h : Written p q) (path : Path) (text : String) : Written p (q.commit path text).2
  | file {q : Pipeline σ} (h : Written p q) (path : Path) (text : String) :
    Written p { q with host := (Host.write q.host path text).2 }

theorem Written.trans {p q r : Pipeline σ} (h1 : Written p q) (h2 : Written q r) : Written p r := by
  induction h2 with
  | none => exact h1
  | output _ path text ih => exact ih.output path text
  | file _ path text ih => exact ih.file path text

/-- **Writes leave alone what the passes left.** -/
theorem Written.sameNotes {p q : Pipeline σ} (h : Written p q) : SameNotes p q := by
  induction h with
  | none => exact SameNotes.refl p
  | output _ path text ih => exact ih.trans (sameNotes_commit _ path text)
  | file _ path text ih => exact ih.trans ⟨rfl, rfl, rfl, rfl, rfl, rfl⟩

theorem written_emit (e : Emitter) (p : Pipeline σ) (u : SourceUnit) : Written p (e.emit p u).2 := by
  have hfirst := Written.none.output (e.outputPath u.path) (Emitter.outputText (e.outputPath u.path) u.text) (p := p)
  unfold Emitter.emit
  split_ifs
  · exact .none
  · dsimp only
    rcases hw : Host.write p (e.outputPath u.path) (Emitter.outputText (e.outputPath u.path) u.text) with ⟨err | _, q⟩
    · rw [show p.commit _ _ = _ from hw] at hfirst
      exact hfirst
    · rw [show p.commit _ _ = _ from hw] at hfirst
      exact hfirst.output _ _

-- the emitter is not looked into where its units are gone through
seal Emitter.emit in
theorem emitAll_cons (e : Emitter) (p : Pipeline σ) (u : SourceUnit) (units : List SourceUnit) :
    p.emitAll e (u :: units) = if p.hasFailed u.path then p.emitAll e units
      else match e.emit p u with
        | (.error err, p) => (.error err, p)
        | (.ok (), p) => p.emitAll e units := rfl

/-- emission only writes, whether it succeeds or not -/
theorem written_emitAll (e : Emitter) (units : List SourceUnit) :
    ∀ p : Pipeline σ, Written p (p.emitAll e units).2 := by
  induction units with
  | nil => intro p; exact .none
  | cons u units ih =>
    intro p
    have hfirst := written_emit e p u
    rw [emitAll_cons]
    split_ifs
    · exact ih p
    · rcases hw : e.emit p u with ⟨err | _, q⟩
      · rw [hw] at hfirst
        exact hfirst
      · rw [hw] at hfirst
        exact hfirst.trans (ih q)

end

/-! ## One output -/

/-- an output that is no map is written, and nothing else -/
theorem commit_output {p : Pipeline MemoryHost} {path : Path} {text : String} (h : path.extension? ≠ some "map") :
    ∃ q, p.commit path text = (.ok (), q) ∧ ∀ x :
      Path, x.normalize ≠ path.normalize → Host.read? q.host x = Host.read? p.host x := by
  have hread : ∀ (host : MemoryHost) (t : String) (x : Path), x.normalize ≠ path.normalize →
      Host.read? (host.write path.normalize t) x = Host.read? host x := by
    intro host t x hx
    rw [MemoryHost.read?_write, Path.normalize_normalize, if_neg hx]
  unfold commit
  rw [if_neg h]
  dsimp only
  split_ifs
  · exact ⟨_, rfl, hread p.host _⟩
  · exact ⟨_, rfl, hread p.host _⟩

/-- a map is written composed, and nothing else -/
theorem commit_map {p : Pipeline MemoryHost} {path : Path} {text composed : String} (h : path.extension? = some "map")
    (hc : p.ledger.compose p.host path text = .ok composed) :
    ∃ q, p.commit path text = (.ok (), q) ∧ Host.read? q.host path = some composed ∧
      ∀ x : Path, x.normalize ≠ path.normalize → Host.read? q.host x = Host.read? p.host x := by
  refine ⟨{ p with host := p.host.write path composed }, ?_, ?_, fun x hx => ?_⟩
  · unfold commit
    rw [if_pos h, hc]
    rfl
  · rw [MemoryHost.read?_write, if_pos rfl]
  · rw [MemoryHost.read?_write, if_neg hx]

/-- keys are normal paths, so a composed map does not depend on the files of the host -/
theorem compose_host (l : Ledger) (h h' : MemoryHost) (output : Path) (base : String) :
    l.compose h output base = l.compose h' output base := by
  have hkey : ∀ s, Ledger.sourceKey h output s = Ledger.sourceKey h' output s := fun _ => rfl
  unfold Ledger.compose Ledger.pending
  simp only [hkey]

/-- the composed map of a unit -/
def mapOf (e : Emitter) (l : Ledger) (u : SourceUnit) : Except Error String :=
  l.compose ({} : MemoryHost) (mapPath (e.outputPath u.path)) (baseMap (e.outputPath u.path) u).render

/-- neither the output of a unit nor its map -/
def Apart (e : Emitter) (u : SourceUnit) (x : Path) : Prop :=
  x.normalize ≠ (e.outputPath u.path).normalize ∧ x.normalize ≠ (mapPath (e.outputPath u.path)).normalize

theorem emit_spec {e : Emitter} {p : Pipeline MemoryHost} {u : SourceUnit} (hdecl : u.path.isDeclarationFile = false)
    {composed : String} (hc : mapOf e p.ledger u = .ok composed) :
    ∃ q, e.emit p u = (.ok (), q) ∧ Host.read? q.host (mapPath (e.outputPath u.path)) = some composed ∧
      ∀ x : Path, Apart e u x → Host.read? q.host x = Host.read? p.host x := by
  obtain ⟨above, stem, hside⟩ := exists_outputs e u.path
  obtain ⟨q1, h1, hread1⟩ :=
    @commit_output p _ (Emitter.outputText (e.outputPath u.path) u.text) hside.extension?_output
  have hc1 : q1.ledger.compose q1.host (mapPath (e.outputPath u.path)) (baseMap (e.outputPath u.path) u).render =
      .ok composed := by
    have hnotes := sameNotes_commit p (e.outputPath u.path) (Emitter.outputText (e.outputPath u.path) u.text)
    rw [h1] at hnotes
    rw [hnotes.ledger, compose_host _ _ {}]
    exact hc
  obtain ⟨q2, h2, hmap, hread2⟩ := commit_map hside.extension?_map hc1
  refine ⟨q2, ?_, hmap, fun x hx => (hread2 x hx.2).trans (hread1 x hx.1)⟩
  have hwrite : Host.write p (e.outputPath u.path) (Emitter.outputText (e.outputPath u.path) u.text) =
      (.ok (), q1) := h1
  rw [Emitter.emit_of_write hdecl hwrite]
  exact h2

/-! ## All outputs -/

/-- the units that are written -/
def Emitted (p : Pipeline MemoryHost) (u : SourceUnit) : Prop :=
  p.hasFailed u.path = false ∧ u.path.isDeclarationFile = false

theorem SameNotes.emitted_iff {p q : Pipeline MemoryHost} (h : SameNotes p q) {u : SourceUnit} :
    q.Emitted u ↔ p.Emitted u := by
  rw [Emitted, Emitted, h.hasFailed]

/-- no other unit that is written has the output of `u` -/
def Alone (p : Pipeline MemoryHost) (e : Emitter) (units : List SourceUnit) (u : SourceUnit) : Prop :=
  ∀ v ∈ units, p.Emitted v → (e.outputPath v.path).normalize = (e.outputPath u.path).normalize → v.path = u.path

/-- at the output of `u` stands the composed map of a unit that is written there -/
def Mapped (p : Pipeline MemoryHost) (e : Emitter) (units : List SourceUnit) (host : MemoryHost) (u : SourceUnit) :
    Prop :=
  ∃ v ∈ units, p.Emitted v ∧ (e.outputPath v.path).normalize = (e.outputPath u.path).normalize ∧
    ∃ composed, mapOf e p.ledger v = .ok composed ∧ Host.read? host (mapPath (e.outputPath u.path)) = some composed

theorem Mapped.cons {p q : Pipeline MemoryHost} (h : SameNotes p q) {e : Emitter} {units : List SourceUnit}
    {host : MemoryHost} {u : SourceUnit} (hu : q.Mapped e units host u) (v : SourceUnit) :
    p.Mapped e (v :: units) host u := by
  obtain ⟨w, hw, hem, hsame, hmap⟩ := hu
  rw [h.ledger] at hmap
  exact ⟨w, List.mem_cons_of_mem _ hw, h.emitted_iff.1 hem, hsame, hmap⟩

/-- units with one output share the map there -/
theorem Mapped.of_same {p : Pipeline MemoryHost} {e : Emitter} {units : List SourceUnit} {host : MemoryHost}
    {u w : SourceUnit} (h : p.Mapped e units host w)
    (hsame : (e.outputPath w.path).normalize = (e.outputPath u.path).normalize) :
    p.Mapped e units host u := by
  obtain ⟨_, _, hside⟩ := exists_outputs e u.path
  obtain ⟨_, _, hside'⟩ := exists_outputs e w.path
  obtain ⟨v, hv, hem, hvw, composed, hc, hread⟩ := h
  rw [MemoryHost.read?_congr host ((hside'.normalize_map_iff hside).2 hsame)] at hread
  exact ⟨v, hv, hem, hvw.trans hsame, composed, hc, hread⟩

/-- a unit with another output and its map are apart from the map of a unit: no output is a map -/
theorem apart_mapPath {e : Emitter} {u w : SourceUnit}
    (h : (e.outputPath w.path).normalize ≠ (e.outputPath u.path).normalize) :
    Apart e w (mapPath (e.outputPath u.path)) := by
  obtain ⟨_, _, hside⟩ := exists_outputs e u.path
  obtain ⟨_, _, hside'⟩ := exists_outputs e w.path
  exact ⟨(hside'.normalize_ne hside).symm, fun hsame => h ((hside'.normalize_map_iff hside).1 hsame.symm)⟩

theorem emitAll_cons_of_not_emitted {e : Emitter} {p : Pipeline MemoryHost} {u : SourceUnit} {units : List SourceUnit}
    (h : ¬ p.Emitted u) :
    p.emitAll e (u :: units) = p.emitAll e units := by
  rw [emitAll_cons]
  split_ifs with hfailed
  · rfl
  · have hdecl : u.path.isDeclarationFile = true := by
      by_contra hn
      exact h ⟨by simpa using hfailed, by simpa using hn⟩
    unfold Emitter.emit
    rw [if_pos hdecl]

/-- **At each output stands the composed map of a unit written there.** -/
theorem emitAll_spec {e : Emitter} (units : List SourceUnit) :
    ∀ {p : Pipeline MemoryHost}, (∀ u ∈ units, p.Emitted u → ∃ composed, mapOf e p.ledger u = .ok composed) →
      ∃ q, p.emitAll e units = (.ok (), q) ∧
        (∀ x : Path, (∀ u ∈ units, p.Emitted u → Apart e u x) → Host.read? q.host x = Host.read? p.host x) ∧
        ∀ u ∈ units, p.Emitted u → p.Mapped e units q.host u := by
  induction units with
  | nil =>
    intro p _
    exact ⟨p, rfl, fun _ _ => rfl, fun u hu => by cases hu⟩
  | cons v units ih =>
    intro p hcompose
    by_cases hv : p.Emitted v
    · obtain ⟨composed, hc⟩ := hcompose v List.mem_cons_self hv
      obtain ⟨q1, h1, hmap1, hread1⟩ := emit_spec hv.2 hc
      have hnotes1 := (written_emit e p v).sameNotes
      rw [h1] at hnotes1
      have hcompose1 : ∀ u ∈ units, q1.Emitted u → ∃ composed, mapOf e q1.ledger u = .ok composed := by
        intro u hu hem
        rw [hnotes1.ledger]
        exact hcompose u (List.mem_cons_of_mem _ hu) (hnotes1.emitted_iff.1 hem)
      obtain ⟨q, h2, hframe, hmaps⟩ := ih hcompose1
      have hlater : ∀ u ∈ units, p.Emitted u → p.Mapped e (v :: units) q.host u :=
        fun u hu hem => (hmaps u hu (hnotes1.emitted_iff.2 hem)).cons hnotes1 v
      refine ⟨q, ?_, ?_, ?_⟩
      · rw [emitAll_cons, if_neg (by simp [hv.1]), h1]
        exact h2
      · intro x hx
        rw [hframe x fun u hu hem => hx u (List.mem_cons_of_mem _ hu) (hnotes1.emitted_iff.1 hem)]
        exact hread1 x (hx v List.mem_cons_self hv)
      · intro u hu hem
        rcases List.mem_cons.1 hu with rfl | hu
        · -- a later unit with the same output overwrites the map
          by_cases hover : ∃ w ∈ units, p.Emitted w ∧ (e.outputPath w.path).normalize = (e.outputPath u.path).normalize
          · obtain ⟨w, hw, hemw, hsame⟩ := hover
            exact (hlater w hw hemw).of_same hsame
          · refine ⟨u, List.mem_cons_self, hem, rfl, composed, hc, ?_⟩
            rw [hframe, hmap1]
            intro w hw hemw
            apply apart_mapPath
            exact fun hsame => hover ⟨w, hw, hnotes1.emitted_iff.1 hemw, hsame⟩
        · exact hlater u hu hem
    · obtain ⟨q, h2, hframe, hmaps⟩ := ih fun u hu => hcompose u (List.mem_cons_of_mem _ hu)
      refine ⟨q, (emitAll_cons_of_not_emitted hv).trans h2, ?_, ?_⟩
      · intro x hx
        exact hframe x fun u hu => hx u (List.mem_cons_of_mem _ hu)
      · intro u hu hem
        have hu' : u ∈ units := (List.mem_cons.1 hu).resolve_left fun hc => hv (hc ▸ hem)
        exact (hmaps u hu' hem).cons (SameNotes.refl p) v

end Pipeline

end ClosurePipeline
