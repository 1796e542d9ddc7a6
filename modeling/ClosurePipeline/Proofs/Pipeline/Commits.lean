/-
Manifest and outputs in step. Outputs are committed one by one, some again and again, and some commits fail. At every
point the manifest lists what has been committed as a module, and nothing else, and each entry says what stands at its
output: the name the module defines and the names it requires.

- `commit_module`, `commit_other`: what a commit does, to a module and to any other output;
- `Mirrored`: the manifest and the outputs say what has been committed. `Mirrored.commit` is the step,
  `mirrored_commitAll` the run;
- `entry_matches_text`: the entry of an output, by the text that stands there;
- `manifest_mirrors_outputs`: the whole of it, for a new pipeline. Names and the id of an ES5 header stand in the text
  in quotes. So a path that ends as a require call starts makes an ES5 header look like a call, and a name with a quote
  in it stands in no call (`entries_do_not_always_agree`).
-/
import Mathlib.Tactic
import ClosurePipeline.Proofs.Output.GoogModule
import ClosurePipeline.Proofs.Pipeline.Lines
import ClosurePipeline.Proofs.Pipeline.Writes
import ClosurePipeline.Proofs.Project.Naming

namespace ClosurePipeline.Pipeline

/-! ## Commits -/

theorem read?_put (p : Pipeline MemoryHost) (w : Writing) (k : Path) :
    Host.read? (p.put w).host k = if k.normalize = w.path.normalize then some w.text else Host.read? p.host k :=
  MemoryHost.read?_write ..

/-- commits outputs in order; a commit that fails leaves what is there -/
def commitAll (p : Pipeline MemoryHost) (commits : List (Path × String)) : Pipeline MemoryHost :=
  commits.foldl (fun p c => (p.commit c.1 c.2).2) p

theorem commitAll_concat (p : Pipeline MemoryHost) (commits : List (Path × String)) (path : Path) (text : String) :
    p.commitAll (commits ++ [(path, text)]) = ((p.commitAll commits).commit path text).2 := by
  rw [commitAll, List.foldl_append]
  rfl

/-- an output at this path is a module: it is no map and no declaration file -/
def IsModule (path : Path) : Prop := path.extension? ≠ some "map" ∧ path.isDeclarationFile = false

/-- a commit of anything else leaves the manifest and the files at other paths, whether it succeeds or not -/
theorem commit_other {p : Pipeline MemoryHost} (hm : p.manifest.entries.Sorted) {path : Path}
    (hpath : path.normalize = path) (hother : ¬ IsModule path) (text : String) :
    (p.commit path text).2.manifest = p.manifest ∧
      ∀ k : Path, k.normalize ≠ path.normalize → Host.read? (p.commit path text).2.host k = Host.read? p.host k := by
  have hput : ∀ written, (p.put { path := path, text := written }).manifest = p.manifest ∧
      ∀ k : Path, k.normalize ≠ path.normalize → Host.read? (p.put { path := path, text := written }).host k =
        Host.read? p.host k := by
    intro written
    exact ⟨rfl, fun k hk => by rw [read?_put, if_neg hk]⟩
  by_cases hmap : path.extension? = some "map"
  · cases hc : p.ledger.compose p.host path text with
    | error e =>
      have hsame : (p.commit path text).2 = p := by
        unfold commit
        rw [if_pos hmap, hc]
      rw [hsame]
      exact ⟨rfl, fun k _ => rfl⟩
    | ok composed =>
      rw [commit_map_eq hmap hc]
      exact hput composed
  · have hdecl : path.isDeclarationFile = true := by
      by_contra hd
      exact hother ⟨hmap, by simpa using hd⟩
    have hplain : outputWriting p.policy p.options path text = { path := path, text := text } := by
      rw [outputWriting, hpath, if_pos (by simp [hdecl])]
    rw [commit_output_eq hm hmap, hplain]
    exact hput text

theorem commit_module {p : Pipeline MemoryHost} (hm : p.manifest.entries.Sorted) {path : Path} (hmodule : IsModule path)
    (text : String) :
    (p.commit path text).2 = p.put (outputWriting p.policy p.options path text) := by
  rw [commit_output_eq hm hmodule.1]

/-- a module that is put is listed at its path and written there, and all else is as it was -/
theorem put_module {p : Pipeline MemoryHost} (hgoog : p.options.googModule = true) {path : Path}
    (hpath : path.normalize = path) (hmodule : IsModule path) (text : String) :
    ∃ entry, Writing.entry? (outputWriting p.policy p.options path text) = some entry ∧
      (p.put (outputWriting p.policy p.options path text)).manifest = ⟨p.manifest.entries.insert path entry⟩ ∧
      ∀ k : Path, Host.read? (p.put (outputWriting p.policy p.options path text)).host k =
        if k.normalize = path.normalize then some (outputWriting p.policy p.options path text).text
          else Host.read? p.host k := by
  have hwritten : (outputWriting p.policy p.options path text).path = path := (path_outputWriting ..).trans hpath
  obtain ⟨entry, hentry⟩ : ∃ entry, Writing.entry? (outputWriting p.policy p.options path text) = some entry := by
    rw [outputWriting, if_neg (by simp [hgoog, hpath, hmodule.2])]
    exact ⟨_, rfl⟩
  refine ⟨entry, hentry, ?_, fun k => ?_⟩
  · rw [put, hentry, hwritten]
  · rw [read?_put, hwritten]

theorem sameNotes_commitAll (p : Pipeline MemoryHost) (commits : List (Path × String)) :
    SameNotes p (p.commitAll commits) := by
  induction commits using List.reverseRecOn with
  | nil => exact SameNotes.refl p
  | append_singleton commits c ih =>
    rw [commitAll_concat]
    exact ih.trans (sameNotes_commit _ c.1 c.2)

/-! ## In step -/

/-- the manifest lists the modules committed, and it and the host have what is written for the last text of each -/
structure Mirrored (p : Pipeline MemoryHost) (commits : List (Path × String)) : Prop where
  sorted : p.manifest.entries.Sorted
  mem_files_iff : ∀ k, k ∈ p.manifest.files ↔ k ∈ commits.map Prod.fst ∧ IsModule k
  last : ∀ k ∈ p.manifest.files, ∃ text, (k, text) ∈ commits ∧
      Host.read? p.host k = some (outputWriting p.policy p.options k text).text ∧
    p.manifest.entry? k = Writing.entry? (outputWriting p.policy p.options k text)

namespace Mirrored

variable {p : Pipeline MemoryHost} {commits : List (Path × String)}

/-- an output that is no module, whether it is written or not -/
theorem commit_other (h : Mirrored p commits) (hnormal : ∀ c ∈ commits, c.1.normalize = c.1) {path : Path}
    (hpath : path.normalize = path) (hother : ¬ IsModule path) (text : String) :
    Mirrored (p.commit path text).2 (commits ++ [(path, text)]) := by
  have hnotes := sameNotes_commit p path text
  obtain ⟨hmanifest, hread⟩ := Pipeline.commit_other h.sorted hpath hother text
  refine ⟨hmanifest ▸ h.sorted, fun k => ?_, fun k hk => ?_⟩
  · rw [hmanifest, h.mem_files_iff, List.map_append, List.mem_append, List.map_singleton, List.mem_singleton]
    constructor
    · exact fun ⟨hk, hmodule⟩ => ⟨Or.inl hk, hmodule⟩
    · exact fun ⟨hk, hmodule⟩ => ⟨hk.resolve_right fun hc => hother (by rwa [hc] at hmodule), hmodule⟩
  · rw [hmanifest] at hk ⊢
    obtain ⟨last, hmem, hlast, hentry⟩ := h.last k hk
    obtain ⟨hcommitted, hmodule⟩ := (h.mem_files_iff k).1 hk
    obtain ⟨c, hc, rfl⟩ := List.mem_map.1 hcommitted
    have hne : c.1.normalize ≠ path.normalize := fun he => hother (by rwa [← hpath, ← he, hnormal c hc])
    rw [hread _ hne, hnotes.policy, hnotes.options]
    exact ⟨last, List.mem_append_left _ hmem, hlast, hentry⟩

/-- a module takes the place of what was at its path -/
theorem commit_module (h : Mirrored p commits) (hgoog : p.options.googModule = true)
    (hnormal : ∀ c ∈ commits, c.1.normalize = c.1) {path : Path} (hpath : path.normalize = path)
    (hmodule : IsModule path) (text : String) :
    Mirrored (p.commit path text).2 (commits ++ [(path, text)]) := by
  rw [Pipeline.commit_module h.sorted hmodule]
  have hfiles : ∀ k ∈ p.manifest.files, k.normalize = k := by
    intro k hk
    obtain ⟨c, hc, rfl⟩ := List.mem_map.1 ((h.mem_files_iff k).1 hk).1
    exact hnormal c hc
  have hspelled : ∀ e ∈ p.manifest.entries.entries, path.Same e.1 → e.1 = path := fun e he hs =>
    Path.eq_of_same_of_normal (hfiles e.1 (List.mem_map_of_mem he)) hpath hs.symm
  obtain ⟨entry, hentry, hmanifest, hread⟩ := put_module hgoog hpath hmodule text
  have hkeys : ∀ k, k ∈ (p.put (outputWriting p.policy p.options path text)).manifest.files ↔
      k = path ∨ k ∈ p.manifest.files := by
    intro k
    rw [hmanifest]
    exact h.sorted.mem_keys_insert_iff hspelled entry
  refine ⟨hmanifest ▸ h.sorted.insert path entry, fun k => ?_, fun k hk => ?_⟩
  · rw [hkeys, h.mem_files_iff, List.map_append, List.mem_append, List.map_singleton, List.mem_singleton]
    constructor
    · rintro (rfl | ⟨hk, hm⟩)
      · exact ⟨Or.inr rfl, hmodule⟩
      · exact ⟨Or.inl hk, hm⟩
    · rintro ⟨hk | rfl, hm⟩
      · exact Or.inr ⟨hk, hm⟩
      · exact Or.inl rfl
  · have hget : (p.put (outputWriting p.policy p.options path text)).manifest.entry? k = if k.Same path then some entry
        else p.manifest.entry? k := by
      rw [Manifest.entry?, hmanifest, PathTable.get?_insert]
      rfl
    by_cases hkp : k = path
    · refine ⟨text, by simp [hkp], ?_, ?_⟩
      · rw [hread, hkp, if_pos rfl]
        rfl
      · rw [hget, hkp, if_pos (Path.Same.refl _), ← hentry]
        rfl
    · have hold := ((hkeys k).1 hk).resolve_left hkp
      obtain ⟨last, hmem, hlast, hlisted⟩ := h.last k hold
      refine ⟨last, List.mem_append_left _ hmem, ?_, ?_⟩
      · rw [hread, if_neg (by rwa [hfiles k hold, hpath])]
        exact hlast
      · rw [hget, if_neg fun hs => hkp (Path.eq_of_same_of_normal (hfiles k hold) hpath hs)]
        exact hlisted

/-- **A commit keeps manifest and outputs in step,** whether it succeeds or not. -/
theorem commit (h : Mirrored p commits) (hgoog : p.options.googModule = true)
    (hnormal : ∀ c ∈ commits, c.1.normalize = c.1) {path : Path} (hpath : path.normalize = path) (text : String) :
    Mirrored (p.commit path text).2 (commits ++ [(path, text)]) := by
  by_cases hmodule : IsModule path
  · exact h.commit_module hgoog hnormal hpath hmodule text
  · exact h.commit_other hnormal hpath hmodule text

end Mirrored

theorem mirrored_commitAll (host : MemoryHost) (policy : Rules) {options : PipelineOptions}
    (hgoog : options.googModule = true) {commits : List (Path × String)}
    (hnormal : ∀ c ∈ commits, c.1.normalize = c.1) :
    Mirrored ((fresh host policy options).commitAll commits) commits := by
  induction commits using List.reverseRecOn with
  | nil =>
    exact ⟨List.Pairwise.nil, fun k => by simp [fresh, commitAll, Manifest.files, PathTable.keys],
      fun k hk => by cases hk⟩
  | append_singleton commits c ih =>
    have hbefore : ∀ d ∈ commits, d.1.normalize = d.1 := fun d hd => hnormal d (List.mem_append_left _ hd)
    have hsetup := sameNotes_commitAll (fresh host policy options) commits
    rw [commitAll_concat]
    exact (ih hbefore).commit (hsetup.options ▸ hgoog) hbefore (hnormal c (by simp)) c.2

/-! ## Entries and texts -/

/-- what the rules of a project put in quotes can stand there, unless an id ends as a call starts: names have no quotes
and no parentheses, and ids have the characters of their paths -/
theorem quotableAt_rules (policy : Policy) {es5 : Bool} {path : Path} (hquote : '\'' ∉ path.text.toList)
    (hid : es5 = true → ¬ GoogModule.callWord <:+ (policy.moduleId path).toList) :
    GoogModule.QuotableAt policy.rules es5 path := by
  have hnames : ∀ context specifier, GoogModule.Quotable (policy.rules.moduleName context specifier) := by
    intro context specifier
    refine ⟨fun h => absurd (Policy.mem_moduleName h) (by decide), fun h => ?_⟩
    have hparenthesis : '(' ∈ (policy.moduleName context specifier).toList := h.subset (by decide)
    exact absurd (Policy.mem_moduleName hparenthesis) (by decide)
  refine ⟨hnames _ _, hnames _, fun h5 => ⟨fun hc => ?_, hid h5⟩⟩
  rcases Policy.mem_moduleId hc with hc | hc | hc
  · exact absurd hc (by decide)
  · exact absurd hc (by decide)
  · exact hquote hc

/-- the entry of a module and its text: the text starts with the name, and its calls are the names required -/
theorem entry_matches_text (rules : Rules) {options : PipelineOptions} (hgoog : options.googModule = true) {path : Path}
    (hpath : path.normalize = path) (hdecl : path.isDeclarationFile = false) {text : String}
    (hclean : ¬ GoogModule.opening <:+: text.toList) :
    ∃ entry, Writing.entry? (outputWriting rules options path text) = some entry ∧
      ("goog.module('" ++ entry.moduleName ++ "')").toList <+: (outputWriting rules options path text).text.toList ∧
      (GoogModule.QuotableAt rules options.es5 path →
        ∀ name, name ∈ entry.referenced ↔ GoogModule.Calls (outputWriting rules options path text).text name) := by
  rw [outputWriting, hpath, if_neg (by simp [hgoog, hdecl])]
  refine ⟨_, rfl, GoogModule.moduleHead_prefix rules options.es5 path text, fun hquotes name => ?_⟩
  dsimp only
  rw [ManifestEntry.mem_sortNames, GoogModule.calls_text_iff hquotes hclean]

/-- **The manifest mirrors the outputs committed.** Take a new pipeline that makes modules, with any rules, and any
commits to normal paths without quotes of texts without calls. The manifest lists the paths of those that are no maps
and no declaration files, each once. At each of them there stands a text that starts with `goog.module` of the name in
the entry. If what the rules put in quotes can stand there, the names that stand in the text as calls are those that the
entry says are required. This holds of the rules of a project but for ES5 ids that end as a call starts. -/
theorem manifest_mirrors_outputs (host : MemoryHost) (rules : Rules) {options : PipelineOptions}
    (hgoog : options.googModule = true) {commits : List (Path × String)}
    (hpaths : ∀ c ∈ commits, c.1.normalize = c.1 ∧ '\'' ∉ c.1.text.toList)
    (htexts : ∀ c ∈ commits, ¬ "goog.require('".toList <:+: c.2.toList) :
    (∀ k, k ∈ ((fresh host rules options).commitAll commits).manifest.files ↔ k ∈ commits.map Prod.fst ∧ IsModule k) ∧
      ((fresh host rules options).commitAll commits).manifest.files.Nodup ∧
      ∀ k ∈ ((fresh host rules options).commitAll commits).manifest.files, ∃ entry text,
        ((fresh host rules options).commitAll commits).manifest.entry? k = some entry ∧
        Host.read? ((fresh host rules options).commitAll commits).host k = some text ∧
        ("goog.module('" ++ entry.moduleName ++ "')").toList <+: text.toList ∧
        (GoogModule.QuotableAt rules options.es5 k ∨ (∃ policy : Policy, rules = policy.rules ∧
            (options.es5 = true → ¬ "goog.require(".toList <:+ (policy.moduleId k).toList)) →
          ∀ name, name ∈ entry.referenced ↔ GoogModule.Calls text name) := by
  have h := mirrored_commitAll host rules hgoog fun c hc => (hpaths c hc).1
  have hnotes := sameNotes_commitAll (fresh host rules options) commits
  have hopening : "goog.require('".toList = GoogModule.opening := by decide
  refine ⟨h.mem_files_iff, ?_, fun k hk => ?_⟩
  · refine List.pairwise_map.2 (h.sorted.imp fun {a b} hlt heq => ?_)
    exact Path.not_same_of_compare_lt hlt (heq ▸ Path.Same.refl _)
  · obtain ⟨text, hmem, hread, hentry⟩ := h.last k hk
    obtain ⟨hnormal, hquote⟩ := hpaths _ hmem
    have hclean := htexts _ hmem
    rw [hopening] at hclean
    rw [hnotes.policy, hnotes.options] at hread hentry
    obtain ⟨entry, hsome, hstart, hcalls⟩ :=
      entry_matches_text rules hgoog hnormal ((h.mem_files_iff k).1 hk).2.2 hclean
    refine ⟨entry, _, hentry.trans hsome, hread, hstart, fun hquotes => hcalls ?_⟩
    rcases hquotes with hquotes | ⟨policy, rfl, hid⟩
    · exact hquotes
    · exact quotableAt_rules policy hquote hid

/-- outputs committed one after the other: a module and what it requires, a map that cannot be read, a declaration file,
and the module again -/
def outputHistory : List (Path × String) :=
  [(⟨"/p/main.js"⟩, "var a = require('./util'), b = require(\"lib/x\");\n"), (⟨"/p/main.js.map"⟩, "no map"),
    (⟨"/p/util.d.ts"⟩, "declare var n;\n"), (⟨"/p/util.js"⟩, "'use strict';\nexports.n = 1;\n"),
    (⟨"/p/main.js"⟩, "var a = require('./util');\n")]

/-- two modules are listed, and the last text of each stands at its output -/
theorem manifest_mirrors_outputs_history :
    (∀ c ∈ outputHistory, c.1.normalize = c.1 ∧ '\'' ∉ c.1.text.toList) ∧
    (∀ c ∈ outputHistory, ¬ "goog.require('".toList <:+: c.2.toList) ∧
      ∃ q : Pipeline MemoryHost, q = (fresh {} (Policy.rules ⟨⟨"/p"⟩, none, [], []⟩) {}).commitAll outputHistory ∧
        (∀ k, k ∈ q.manifest.files ↔ k = ⟨"/p/main.js"⟩ ∨ k = ⟨"/p/util.js"⟩) ∧
        ∃ entry text, q.manifest.entry? ⟨"/p/main.js"⟩ = some entry ∧ Host.read? q.host ⟨"/p/main.js"⟩ = some text ∧
          (∀ name, GoogModule.Calls text name ↔ name = "util") := by
  have hpaths : ∀ c ∈ outputHistory, c.1.normalize = c.1 ∧ '\'' ∉ c.1.text.toList := by decide
  have htexts : ∀ c ∈ outputHistory, ¬ "goog.require('".toList <:+: c.2.toList := by decide
  have hmodules : ((outputHistory.map Prod.fst).filter fun k => k.extension? ≠ some "map" && !k.isDeclarationFile) =
      [⟨"/p/main.js"⟩, ⟨"/p/util.js"⟩, ⟨"/p/main.js"⟩] := by decide
  obtain ⟨hfiles, -, hlast⟩ :=
    @manifest_mirrors_outputs {} (Policy.rules ⟨⟨"/p"⟩, none, [], []⟩) {} rfl outputHistory hpaths htexts
  have hlisted : ∀ k, k ∈ ((fresh {} (Policy.rules ⟨⟨"/p"⟩, none, [], []⟩) {}).commitAll outputHistory).manifest.files ↔
      k = ⟨"/p/main.js"⟩ ∨ k = ⟨"/p/util.js"⟩ := by
    intro k
    have hmem : k ∈ outputHistory.map Prod.fst ∧ IsModule k ↔
        k ∈ (outputHistory.map Prod.fst).filter fun k => k.extension? ≠ some "map" && !k.isDeclarationFile := by
      rw [List.mem_filter]
      simp [IsModule]
    rw [hfiles, hmem, hmodules]
    simp only [List.mem_cons, List.not_mem_nil, or_false]
    exact ⟨fun h => h.elim Or.inl fun h => h.elim Or.inr Or.inl, fun h => h.imp_right Or.inl⟩
  obtain ⟨entry, text, hentry, hread, -, hcalls⟩ := hlast ⟨"/p/main.js"⟩ ((hlisted _).2 (Or.inl rfl))
  refine ⟨hpaths, htexts, _, rfl, hlisted, entry, text, hentry, hread, fun name => ?_⟩
  have hknown :
      (((fresh {} (Policy.rules ⟨⟨"/p"⟩, none, [], []⟩) {}).commitAll outputHistory).manifest.entry? ⟨"/p/main.js"⟩).map
      (·.referenced) = some ["util"] := by decide +kernel
  rw [hentry] at hknown
  have hreferenced : entry.referenced = ["util"] := Option.some.inj hknown
  rw [← hcalls (.inr ⟨_, rfl, fun h => by cases h⟩), hreferenced, List.mem_singleton]

/-- the entries of outputs agree with the calls in their texts, after any commits to normal paths without quotes of
texts without calls -/
def EntriesAgree (rules : Rules) (options : PipelineOptions) : Prop :=
  ∀ (host : MemoryHost) (commits : List (Path × String)),
    (∀ c ∈ commits, c.1.normalize = c.1 ∧ '\'' ∉ c.1.text.toList) →
    (∀ c ∈ commits, ¬ "goog.require('".toList <:+: c.2.toList) →
    ∀ k ∈ ((fresh host rules options).commitAll commits).manifest.files, ∀ entry text,
      ((fresh host rules options).commitAll commits).manifest.entry? k = some entry →
      Host.read? ((fresh host rules options).commitAll commits).host k = some text →
      ∀ name, name ∈ entry.referenced ↔ GoogModule.Calls text name

/-- rules that call every module `it's` -/
def quotedNames : Rules := ⟨fun _ => false, fun _ => false, fun _ _ => "it's", fun _ => ""⟩

/-- an ES5 header can read as a call: its id ends as a call starts, and the text behind it goes on like a name -/
theorem id_reads_as_call : ¬ EntriesAgree (Policy.rules ⟨⟨"/p"⟩, none, [], []⟩) { es5 := true } := by
  intro hagree
  have hstate : ((fresh {} (Policy.rules ⟨⟨"/p"⟩, none, [], []⟩) { es5 := true }).commitAll
        [(⟨"/p/goog.require("⟩, "x')")]).manifest.files = [⟨"/p/goog.require("⟩] ∧
      ((fresh {} (Policy.rules ⟨⟨"/p"⟩, none, [], []⟩) { es5 := true }).commitAll
        [(⟨"/p/goog.require("⟩, "x')")]).manifest.entry? ⟨"/p/goog.require("⟩ = some ⟨"goog_require_", []⟩ ∧
      Host.read? ((fresh {} (Policy.rules ⟨⟨"/p"⟩, none, [], []⟩) { es5 := true }).commitAll
        [(⟨"/p/goog.require("⟩, "x')")]).host ⟨"/p/goog.require("⟩ =
          some "goog.module('goog_require_'); var module = module || \x7bid: 'goog.require('\x7d; x')" := by
    decide +kernel
  obtain ⟨hfiles, hentry, hread⟩ := hstate
  have hsame := hagree {} [(⟨"/p/goog.require("⟩, "x')")] (by decide) (by decide) _
    (by rw [hfiles]; exact List.mem_singleton_self _) _ _ hentry hread "\x7d; x"
  have hcall : GoogModule.Calls
      "goog.module('goog_require_'); var module = module || \x7bid: 'goog.require('\x7d; x')" "\x7d; x" :=
    ⟨by decide, "goog.module('goog_require_'); var module = module || \x7bid: '".toList, [], by decide⟩
  exact absurd (hsame.2 hcall) List.not_mem_nil

/-- a name with a quote in it is required, and stands in no call -/
theorem quoted_name_is_no_call : ¬ EntriesAgree quotedNames {} := by
  intro hagree
  have hstate : ((fresh {} quotedNames {}).commitAll [(⟨"/p/a.js"⟩, "require('x')")]).manifest.files = [⟨"/p/a.js"⟩] ∧
      ((fresh {} quotedNames {}).commitAll [(⟨"/p/a.js"⟩, "require('x')")]).manifest.entry? ⟨"/p/a.js"⟩ =
        some ⟨"it's", ["it's"]⟩ ∧
      Host.read? ((fresh {} quotedNames {}).commitAll [(⟨"/p/a.js"⟩, "require('x')")]).host ⟨"/p/a.js"⟩ =
        some "goog.module('it's'); goog.require('it's')" := by decide +kernel
  obtain ⟨hfiles, hentry, hread⟩ := hstate
  have hsame := hagree {} [(⟨"/p/a.js"⟩, "require('x')")] (by decide) (by decide) _
    (by rw [hfiles]; exact List.mem_singleton_self _) _ _ hentry hread "it's"
  exact absurd (hsame.1 (List.mem_singleton_self _)).1 (by decide)

/-- **Entries and calls do not always agree:** not under every policy of a project, because of ES5 ids, and without the
ES5 form not under all rules, because of names with quotes. -/
theorem entries_do_not_always_agree :
    (¬ ∀ (policy : Policy) (options : PipelineOptions), options.googModule = true → EntriesAgree policy.rules options) ∧
      ¬ ∀ (rules : Rules) (options : PipelineOptions), options.googModule = true → options.es5 = false →
        EntriesAgree rules options :=
  ⟨fun hall => id_reads_as_call (hall _ _ rfl), fun hall => quoted_name_is_no_call (hall _ _ rfl rfl)⟩

end ClosurePipeline.Pipeline
