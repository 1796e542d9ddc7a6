/-
Outputs beside sources. Specifiers are resolved to files with the endings of sources, and outputs have other endings, so
writing outputs into a host in memory changes nothing about what specifiers lead to. One thing could: a source that
becomes a directory, because an output is written beneath it.

- `Path.Beneath`: one path is strictly beneath another; `beneath_iff` says so by component stacks;
- `IsSource`, `IsOutput`: paths by the ending of their last name; what probing looks at is a source
  (`isSource_of_mem_candidates`);
- `MemoryHost.Alike`: two hosts in which all specifiers lead to the same files, with the same texts;
- `alike_write`, `alike_writes`: writing outputs, one or many.
-/
import Mathlib.Tactic
import ClosurePipeline.Proofs.Host.Memory
import ClosurePipeline.Proofs.Output.Emitter

namespace ClosurePipeline

open Emitter (scriptEnding mapEnding)

namespace Path

/-! ## Beneath -/

/-- `p` is strictly beneath `dir` -/
def Beneath (p dir : Path) : Prop := p.normalize.startsWith dir.normalize = true ∧ ¬ p.normalize.Same dir.normalize

instance (p dir : Path) : Decidable (Beneath p dir) := inferInstanceAs (Decidable (_ ∧ _))

theorem same_normalize_iff {p q : Path} : p.normalize.Same q.normalize ↔ p.stack = q.stack := by
  rw [Same, components_normalize, components_normalize, List.reverse_inj]

theorem startsWith_normalize_iff {p q : Path} : p.normalize.startsWith q.normalize = true ↔ q.stack <:+ p.stack := by
  rw [startsWith, components_normalize, components_normalize, List.isPrefixOf_iff_prefix, List.reverse_prefix]

theorem beneath_iff {p dir : Path} {c : Component} {rest : List Component} (h : p.stack = c :: rest) :
    p.Beneath dir ↔ dir.stack <:+ rest := by
  rw [Beneath, startsWith_normalize_iff, same_normalize_iff, h, List.suffix_cons_iff]
  constructor
  · rintro ⟨heq | hsuffix, hne⟩
    · exact absurd heq.symm hne
    · exact hsuffix
  · intro hsuffix
    refine ⟨Or.inr hsuffix, fun heq => ?_⟩
    have := hsuffix.length_le
    rw [← heq, List.length_cons] at this
    omega

theorem Beneath.congr {p q dir : Path} (h : p.Beneath dir) (hq : q.normalize = p.normalize) : q.Beneath dir := by
  rw [Beneath, hq]
  exact h

/-! ## Endings -/

/-- the last name of a path has this ending -/
def EndsIn (p : Path) (ending : List Char) : Prop :=
  ∃ stem rest, p.stack = .name (String.ofList (stem ++ ending)) :: rest

theorem endsIn_of_suffix {p : Path} {ending : List Char} (h : ending <:+ p.text.toList) (hslash : '/' ∉ ending)
    (hlong : 2 < ending.length) :
    p.EndsIn ending := by
  obtain ⟨cs, hcs⟩ := h
  obtain ⟨above, stem, -, hname⟩ := exists_stretch_append cs
  have hs := hname ending hslash hlong
  rw [hcs] at hs
  exact ⟨stem, _, stack_of_stretch hs⟩

/-- paths with endings that do not end in each other are different -/
theorem EndsIn.stack_ne {p q : Path} {a b : List Char} (hp : p.EndsIn a) (hq : q.EndsIn b) (hab : ¬ a <:+ b)
    (hba : ¬ b <:+ a) : p.stack ≠ q.stack := by
  obtain ⟨s, rest, hs⟩ := hp
  obtain ⟨t, rest', ht⟩ := hq
  intro heq
  rw [hs, ht, List.cons.injEq, Component.name.injEq, String.ofList_inj] at heq
  rcases List.suffix_or_suffix_of_suffix (List.suffix_append s a) (heq.1 ▸ List.suffix_append t b) with h | h
  · exact hab h
  · exact hba h

/-- the endings of the files that specifiers lead to -/
def tsEnding : List Char := ['.', 't', 's']

def tsxEnding : List Char := ['.', 't', 's', 'x']

/-- a path of a source, by its ending -/
def IsSource (p : Path) : Prop := p.EndsIn tsEnding ∨ p.EndsIn tsxEnding

/-- a path of an output or of its map, by its ending -/
def IsOutput (p : Path) : Prop := p.EndsIn scriptEnding ∨ p.EndsIn mapEnding

theorem IsSource.stack_ne {p q : Path} (hp : p.IsSource) (hq : q.IsOutput) : p.stack ≠ q.stack := by
  rcases hp with hp | hp <;> rcases hq with hq | hq <;> exact hp.stack_ne hq (by decide) (by decide)

theorem isSource_of_suffix {p : Path} (h : tsEnding <:+ p.text.toList ∨ tsxEnding <:+ p.text.toList) : p.IsSource :=
  h.imp (fun h => endsIn_of_suffix h (by decide) (by decide)) fun h => endsIn_of_suffix h (by decide) (by decide)

end Path

namespace Host

theorem resolveDependency?_eq {σ : Type} [Host σ] (h : σ) (specifier : String) (file : Path) :
    resolveDependency? h specifier file =
      ((resolveModule? h specifier file).bind (sourceFile? h)).map (canonical h) := by
  unfold resolveDependency?
  cases resolveModule? h specifier file with
  | none => rfl
  | some resolved => cases hs : sourceFile? h resolved <;> simp [hs]

theorem suffix_of_mem_probeEndings {ending : String} (h : ending ∈ probeEndings) :
    Path.tsEnding <:+ ending.toList ∨ Path.tsxEnding <:+ ending.toList := by
  simp only [probeEndings, List.mem_cons, List.not_mem_nil, or_false] at h
  rcases h with rfl | rfl | rfl <;> decide

/-- probing looks at sources -/
theorem isSource_of_mem_candidates {base c : Path} (h : c ∈ candidates base) : c.IsSource := by
  apply Path.isSource_of_suffix
  simp only [candidates, List.mem_append] at h
  rcases h with (h | h) | h
  · split_ifs at h with hwritten
    · rw [List.mem_singleton.1 h]
      obtain ⟨ending, hending, hsuffix⟩ := List.any_eq_true.1 hwritten
      have hsuffix := List.isSuffixOf_iff_suffix.1 hsuffix
      exact (suffix_of_mem_probeEndings hending).imp (·.trans hsuffix) (·.trans hsuffix)
    · cases h
  · split at h
    · rw [List.mem_singleton.1 h]
      refine Or.inl ?_
      rw [String.toList_append]
      exact List.suffix_append _ _
    · cases h
  · obtain ⟨ending, hending, rfl⟩ := List.mem_map.1 h
    have hsuffix : ending.toList <:+ (base.text ++ ending).toList := by
      rw [String.toList_append]
      exact List.suffix_append _ _
    exact (suffix_of_mem_probeEndings hending).imp (·.trans hsuffix) (·.trans hsuffix)

theorem stack_join_index {path : Path} {n : String} (hn : n ∈ indexFiles) :
    (path.join ⟨n⟩).stack = .name n :: path.stack := by
  have hplain := MemoryHost.plain_of_mem_indexFiles hn
  have hrelative : Path.isAbsolute ⟨n⟩ = false := @Path.isAbsolute_text (.name n) hplain
  rw [Path.stack_join path hrelative]
  change (Path.stretch n.toList).foldl Path.resolveStep path.stack = _
  rw [Path.stretch_segment hplain.1, hplain.2]
  rfl

theorem isSource_of_index {path : Path} {n : String} (hn : n ∈ indexFiles) : (path.join ⟨n⟩).IsSource := by
  have hstack : (path.join ⟨n⟩).stack = .name n :: path.stack := stack_join_index hn
  simp only [indexFiles, List.mem_cons, List.not_mem_nil, or_false] at hn
  rcases hn with rfl | rfl | rfl
  · exact Or.inl ⟨"index".toList, _, hstack⟩
  · exact Or.inr ⟨"index".toList, _, hstack⟩
  · exact Or.inl ⟨"index.d".toList, _, hstack⟩

end Host

namespace MemoryHost

variable {h : MemoryHost}

/-! ## One write -/

theorem fileExists_eq (h : MemoryHost) (p : Path) : Host.fileExists h p = (h.table.get? p.normalize).isSome := by
  change (h.table.entry? p.normalize).isSome = ((h.table.entry? p.normalize).map Prod.snd).isSome
  rw [Option.isSome_map]

theorem fileExists_write (h : MemoryHost) (p q : Path) (text : String) :
    Host.fileExists (h.write p text) q = (decide (q.stack = p.stack) || Host.fileExists h q) := by
  rw [fileExists_eq, fileExists_eq]
  change ((h.table.insert p.normalize text).get? q.normalize).isSome = _
  rw [PathTable.get?_insert]
  by_cases hs : q.stack = p.stack
  · rw [if_pos (Path.same_normalize_iff.2 hs), decide_eq_true hs]
    rfl
  · rw [if_neg fun hc => hs (Path.same_normalize_iff.1 hc), decide_eq_false hs, Bool.false_or]

/-- a directory is there if some file is strictly beneath it -/
theorem isDirectory_iff {p : Path} : Host.isDirectory h p = true ↔
    ∃ file : Path, (h.table.get? file).isSome = true ∧ file.startsWith p.normalize = true ∧
      ¬ file.Same p.normalize := by
  change h.hasBelow p = true ↔ _
  simp only [hasBelow, List.any_eq_true, Bool.and_eq_true, Bool.not_eq_true', decide_eq_false_iff_not]
  constructor
  · rintro ⟨k, hk, hne, hstarts⟩
    obtain ⟨e, he, rfl⟩ := List.mem_map.1 hk
    refine ⟨e.1, ?_, hstarts, hne⟩
    rw [Option.isSome_iff_ne_none, ne_eq, PathTable.get?_eq_none_iff]
    exact fun hnone => hnone e he (Path.Same.refl _)
  · rintro ⟨file, hsome, hstarts, hne⟩
    obtain ⟨text, htext⟩ := Option.isSome_iff_exists.1 hsome
    obtain ⟨e, he, -⟩ := Option.map_eq_some_iff.1 htext
    have hsame : file.Same e.1 := by simpa using List.find?_some he
    refine ⟨e.1, List.mem_map_of_mem (List.mem_of_find?_eq_some he), fun hc => hne (hsame.trans hc), ?_⟩
    rw [Path.startsWith, ← hsame]
    exact hstarts

theorem isDirectory_write (h : MemoryHost) (p q : Path) (text : String) :
    Host.isDirectory (h.write p text) q = true ↔ Host.isDirectory h q = true ∨ p.Beneath q := by
  have hget : ∀ file : Path, ((h.write p text).table.get? file).isSome = true ↔
      file.Same p.normalize ∨ (h.table.get? file).isSome = true := by
    intro file
    change ((h.table.insert p.normalize text).get? file).isSome = true ↔ _
    rw [PathTable.get?_insert]
    by_cases hs : file.Same p.normalize <;> simp [hs]
  rw [isDirectory_iff, isDirectory_iff]
  constructor
  · rintro ⟨file, hsome, hstarts, hne⟩
    rcases (hget file).1 hsome with hs | hs
    · refine Or.inr ⟨?_, fun hc => hne (hs.trans hc)⟩
      rw [Path.startsWith, ← hs]
      exact hstarts
    · exact Or.inl ⟨file, hs, hstarts, hne⟩
  · rintro (⟨file, hsome, hstarts, hne⟩ | hbeneath)
    · exact ⟨file, (hget file).2 (Or.inr hsome), hstarts, hne⟩
    · exact ⟨p.normalize, (hget _).2 (Or.inl (Path.Same.refl _)), hbeneath⟩

/-- an index file makes its directory -/
theorem isDirectory_of_index {path : Path} {n : String} (hn : n ∈ Host.indexFiles)
    (he : Host.fileExists h (path.join ⟨n⟩) = true) :
    Host.isDirectory h path = true := by
  rw [fileExists_eq] at he
  refine isDirectory_iff.2 ⟨(path.join ⟨n⟩).normalize, he, ?_⟩
  change (path.join ⟨n⟩).Beneath path
  rw [Path.beneath_iff (Host.stack_join_index hn)]

/-! ## Hosts that lead to the same files -/

/-- specifiers lead to the same files, and these have the same texts -/
structure Alike (h h' : MemoryHost) : Prop where
  resolve : ∀ specifier file, Host.resolveDependency? h' specifier file = Host.resolveDependency? h specifier file
  read : ∀ specifier file target, Host.resolveDependency? h specifier file = some target →
      Host.read? h' target = Host.read? h target

theorem Alike.refl (h : MemoryHost) : Alike h h := ⟨fun _ _ => rfl, fun _ _ _ _ => rfl⟩

theorem Alike.trans {h h' h'' : MemoryHost} (h1 : Alike h h') (h2 : Alike h' h'') : Alike h h'' := by
  refine ⟨fun s f => (h2.resolve s f).trans (h1.resolve s f), fun s f target ht => ?_⟩
  rw [h2.read s f target ((h1.resolve s f).trans ht), h1.read s f target ht]

/-- specifiers lead to sources that are there -/
theorem isSource_of_resolve {specifier : String} {file target : Path}
    (hr : Host.resolveDependency? h specifier file = some target) :
    target.IsSource := by
  obtain ⟨resolved, hmodule, hr⟩ := Option.bind_eq_some_iff.1 hr
  obtain ⟨source, hsource, hr⟩ := Option.bind_eq_some_iff.1 hr
  cases hr
  have hnormal : ∀ {p : Path}, p.IsSource → (Host.canonical h p).IsSource := by
    intro p hp
    unfold Path.IsSource Path.EndsIn at hp ⊢
    rwa [canonical_eq, Path.stack_normalize]
  apply hnormal
  unfold Host.sourceFile? at hsource
  split_ifs at hsource with hdir hexists
  · obtain ⟨n, hn, rfl⟩ := List.mem_map.1 (List.mem_of_find?_eq_some hsource)
    exact Host.isSource_of_index hn
  · cases hsource
    unfold Host.resolveModule? at hmodule
    split_ifs at hmodule with hpath
    dsimp only at hmodule
    split at hmodule
    · rename_i found hfound
      cases hmodule
      exact Host.isSource_of_mem_candidates (List.mem_of_find?_eq_some hfound)
    · split_ifs at hmodule with hisDir
      cases hmodule
      exact absurd hisDir hdir

/-- no source that is there has this path beneath it -/
def Clear (h : MemoryHost) (p : Path) : Prop :=
  ∀ source : Path, source.IsSource → Host.fileExists h source = true → ¬ p.Beneath source

section Write

variable {p : Path} (hp : p.IsOutput) (text : String)

include hp

theorem fileExists_write_of_isSource {q : Path} (hq : q.IsSource) :
    Host.fileExists (h.write p text) q = Host.fileExists h q := by
  rw [fileExists_write, decide_eq_false (hq.stack_ne hp), Bool.false_or]

theorem find?_index_write (path : Path) :
    (Host.indexFiles.map fun n => path.join ⟨n⟩).find? (Host.fileExists (h.write p text)) =
    (Host.indexFiles.map fun n => path.join ⟨n⟩).find? (Host.fileExists h) := by
  refine List.find?_congr fun q hq => ?_
  obtain ⟨n, hn, rfl⟩ := List.mem_map.1 hq
  exact fileExists_write_of_isSource hp text (Host.isSource_of_index hn)

/-- a source stands for the same file -/
theorem sourceFile?_write_of_isSource (hclear : h.Clear p) {q : Path} (hq : q.IsSource)
    (hexists : Host.fileExists h q = true) :
    Host.sourceFile? (h.write p text) q = Host.sourceFile? h q := by
  have hdir : Host.isDirectory (h.write p text) q = Host.isDirectory h q := by
    rw [Bool.eq_iff_iff, isDirectory_write]
    exact ⟨fun hc => hc.resolve_right (hclear q hq hexists), Or.inl⟩
  unfold Host.sourceFile?
  rw [hdir, find?_index_write hp, fileExists_write_of_isSource hp text hq]

/-- a path that is no source leads to index files only, and these are the same -/
theorem bind_sourceFile?_write (base : Path) :
    (if Host.isDirectory (h.write p text) base then some base else none).bind (Host.sourceFile? (h.write p text)) =
      (if Host.isDirectory h base then some base else none).bind (Host.sourceFile? h) := by
  by_cases hdir : Host.isDirectory h base = true
  · have hdir' : Host.isDirectory (h.write p text) base = true := (isDirectory_write h p base text).2 (Or.inl hdir)
    rw [if_pos hdir, if_pos hdir', Option.bind_some, Option.bind_some, Host.sourceFile?, Host.sourceFile?, if_pos hdir,
      if_pos hdir', find?_index_write hp]
  · rw [if_neg hdir, Option.bind_none]
    split_ifs with hdir'
    · -- a directory that was not there before has no index file
      rw [Option.bind_some, Host.sourceFile?, if_pos hdir', find?_index_write hp, List.find?_eq_none]
      intro q hq he
      obtain ⟨n, hn, rfl⟩ := List.mem_map.1 hq
      exact hdir (isDirectory_of_index hn he)
    · rfl

/-- **Writing an output changes nothing about what specifiers lead to.** -/
theorem alike_write (hclear : h.Clear p) : Alike h (h.write p text) := by
  have hresolve : ∀ specifier file, Host.resolveDependency? (h.write p text) specifier file =
      Host.resolveDependency? h specifier file := by
    intro specifier file
    have hcanonical : Host.canonical (h.write p text) = Host.canonical h := rfl
    rw [Host.resolveDependency?_eq, Host.resolveDependency?_eq, hcanonical]
    refine congrArg (Option.map (Host.canonical h)) ?_
    unfold Host.resolveModule?
    split_ifs with hpath
    · dsimp only
      generalize ((file.parent?.getD ⟨"."⟩).join ⟨specifier⟩).normalize = base
      have hprobe : (Host.candidates base).find? (Host.fileExists (h.write p text)) =
          (Host.candidates base).find? (Host.fileExists h) :=
        List.find?_congr fun q hq => fileExists_write_of_isSource hp text (Host.isSource_of_mem_candidates hq)
      rw [hprobe]
      cases hfound : (Host.candidates base).find? (Host.fileExists h) with
      | some found =>
        exact sourceFile?_write_of_isSource hp text hclear
          (Host.isSource_of_mem_candidates (List.mem_of_find?_eq_some hfound))
          (List.find?_some hfound)
      | none => exact bind_sourceFile?_write hp text base
    · rfl
  refine ⟨hresolve, fun specifier file target ht => ?_⟩
  rw [read?_write, if_neg]
  exact fun heq => (isSource_of_resolve ht).stack_ne hp (Path.stack_eq_of_normalize_eq heq)

end Write

/-! ## Many writes -/

/-- files written one after the other -/
def writeAll (h : MemoryHost) (files : List (Path × String)) : MemoryHost := files.foldl (fun h f => h.write f.1 f.2) h

theorem alike_writes (files : List (Path × String)) :
    ∀ {h : MemoryHost}, (∀ f ∈ files, f.1.IsOutput ∧ h.Clear f.1) → Alike h (h.writeAll files) := by
  induction files with
  | nil => intro h _; exact Alike.refl h
  | cons f files ih =>
    intro h hfiles
    obtain ⟨hout, hclear⟩ := hfiles f List.mem_cons_self
    refine (alike_write hout f.2 hclear).trans (ih fun g hg => ?_)
    obtain ⟨hout', hclear'⟩ := hfiles g (List.mem_cons_of_mem _ hg)
    -- sources are there after the write just if they were before
    refine ⟨hout', fun source hsource hexists => hclear' source hsource ?_⟩
    rwa [fileExists_write_of_isSource hout f.2 hsource] at hexists

end MemoryHost

end ClosurePipeline
