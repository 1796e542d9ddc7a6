/-
Where probing leads, by names. A specifier names a place, and probing finds a file at that place, one whose last name
differs by an ending, or an index file beneath one of these.

- `Leads`: what probing makes of a place; `leads_of_mem_candidates` says that the candidates are of this kind;
- `exists_leads_of_resolve`: the file that a specifier leads to;
- `names_of_resolve`: the same below a directory, by the names of the place and of the file;
- `nameOf_eq_iff_of_resolve`: when the module names of the two agree.
-/
import Mathlib.Tactic
import ClosurePipeline.Proofs.Project.Naming

namespace ClosurePipeline.Host

open ClosurePipeline.Path (At NoDeclaration bareName ofNames)
open Policy (Probed nameOf)

/-! ## Candidates -/

/-- what probing makes of a place: the place, another last name there, or an ending alone at the root -/
inductive Leads (place : Path) (found : Path) : Prop where
  | same (h : found.stack = place.stack)
  | renamed {n m : String} {rest : List Component} (hplace : place.stack = .name n :: rest)
      (hfound : found.stack = .name m :: rest) (h : Probed n m)
  | atRoot {ending : String} (he : ending ∈ probeEndings) (hplace : place.stack = [.root])
      (hfound : found.stack = [.name ending, .root])

theorem Leads.length_le {place found : Path} (h : Leads place found) : place.stack.length ≤ found.stack.length := by
  cases h with
  | same h => rw [h]
  | renamed hplace hfound _ => rw [hplace, hfound, List.length_cons, List.length_cons]
  | atRoot _ hplace hfound => simp [hplace, hfound]

section Named

variable {place : Path} (hn : place.normalize = place) {n : String} {rest : List Component}
  (hstack : place.stack = .name n :: rest) (hslash : '/' ∉ n.toList)

include hn hstack hslash

/-- a script at a place leads to the source file of its name -/
theorem leads_of_script {stem : List Char} (hstem : Path.withoutEnding? ['.', 'j', 's'] place.text.toList = some stem) :
    Leads place ⟨String.ofList stem ++ ".ts"⟩ := by
  obtain ⟨start, hopen, htext, hother⟩ := Path.exists_text_of_stack hn hstack
  -- the ending is an ending of the last name
  have hcut := Path.eq_of_withoutEnding? hstem
  rw [htext] at hcut
  obtain ⟨m, hm⟩ :=
    Path.suffix_of_endsOpen hopen (by decide) (⟨stem, hcut.symm⟩ : ['.', 'j', 's'] <:+ start ++ n.toList)
  have hstart : stem = start ++ m := by
    rw [← hm, ← List.append_assoc] at hcut
    exact (List.append_cancel_right hcut).symm
  have hname : n = String.ofList m ++ ".js" :=
    String.toList_inj.1 (by rw [← hm, String.toList_append, String.toList_ofList]; rfl)
  have hpath :
      (⟨String.ofList stem ++ ".ts"⟩ : Path) = ⟨String.ofList (start ++ (String.ofList m ++ ".ts").toList)⟩ := by
    apply Path.eq_of_toList_text
    simp [hstart]
  refine .renamed hstack ?_ (hname ▸ Probed.script (String.ofList m))
  rw [hpath]
  refine hother _ (Path.plain_append ?_ (by decide) (by decide))
  rw [String.toList_ofList]
  exact fun hmem => hslash (hm ▸ List.mem_append_left _ hmem)

/-- an ending behind a place is an ending behind its last name -/
theorem leads_of_ending {ending : String} (he : ending ∈ probeEndings) : Leads place ⟨place.text ++ ending⟩ := by
  obtain ⟨start, -, htext, hother⟩ := Path.exists_text_of_stack hn hstack
  have hending : ∀ e ∈ probeEndings, '/' ∉ e.toList ∧ 2 < e.toList.length := by decide
  have hpath : (⟨place.text ++ ending⟩ : Path) = ⟨String.ofList (start ++ (n ++ ending).toList)⟩ := by
    apply Path.eq_of_toList_text
    simp [htext]
  refine .renamed hstack ?_ (Probed.added n he)
  rw [hpath]
  exact hother _ (Path.plain_append hslash (hending ending he).1 (hending ending he).2)

end Named

/-- **The candidates for a place** are what probing makes of it. -/
theorem leads_of_mem_candidates {place c : Path} (hn : place.normalize = place) (habs : place.isAbsolute = true)
    (hc : c ∈ candidates place) :
    Leads place c := by
  obtain ⟨ms, hms, hplain⟩ := Path.rooted_stack habs
  cases ms with
  | nil =>
    -- the place is the root itself, and only endings can be added
    have hroot : place = ⟨"/"⟩ := by
      rw [← hn, Path.normalize_eq, hms]
      rfl
    subst hroot
    have hall : ∀ c ∈ candidates ⟨"/"⟩, ∃ ending ∈ probeEndings, c.stack = [.name ending, .root] := by decide
    obtain ⟨ending, he, hstack⟩ := hall c hc
    exact .atRoot he hms hstack
  | cons n rest =>
    have hslash : '/' ∉ n.toList := (hplain n List.mem_cons_self).slash_notMem
    simp only [candidates, List.mem_append] at hc
    rcases hc with (hc | hc) | hc
    · split_ifs at hc
      · rw [List.mem_singleton.1 hc]
        exact .same rfl
      · cases hc
    · split at hc
      · rename_i stem hstem
        rw [List.mem_singleton.1 hc]
        exact leads_of_script hn hms hslash hstem
      · cases hc
    · obtain ⟨ending, he, rfl⟩ := List.mem_map.1 hc
      exact leads_of_ending hn hms hslash he

/-! ## Files -/

/-- the place that a specifier in a file names -/
def place (specifier : String) (file : Path) : Path := ((file.parent?.getD ⟨"."⟩).join ⟨specifier⟩).normalize

/-- a specifier that leads somewhere and is not absolute starts with a dot -/
theorem head?_of_resolve {σ : Type} [Host σ] {h : σ} {specifier : String} {file target : Path}
    (hr : resolveDependency? h specifier file = some target) (hs : Path.isAbsolute ⟨specifier⟩ = false) :
    specifier.toList.head? = some '.' := by
  have hpath : isPathSpecifier specifier = true := by
    by_contra hn
    rw [resolveDependency?_eq, resolveModule?, if_neg hn] at hr
    cases hr
  simp only [isPathSpecifier, Bool.or_eq_true, List.isPrefixOf_iff_prefix, beq_iff_eq, hs, Bool.false_eq_true,
    or_false] at hpath
  rcases hpath with ((⟨t, ht⟩ | ⟨t, ht⟩) | rfl) | rfl
  · rw [← ht]
    rfl
  · rw [← ht]
    rfl
  · rfl
  · rfl

/-- **A specifier leads to a file that probing makes of its place, or to an index file beneath it.** -/
theorem exists_leads_of_resolve {h : MemoryHost} {specifier : String} {file target : Path}
    (hr : resolveDependency? h specifier file = some target) (habs : (place specifier file).isAbsolute = true) :
    ∃ found, Leads (place specifier file) found ∧
      (target.stack = found.stack ∨ ∃ n ∈ indexFiles, target.stack = .name n :: found.stack) := by
  obtain ⟨resolved, hmodule, hr⟩ := Option.bind_eq_some_iff.1 hr
  obtain ⟨source, hsource, hr⟩ := Option.bind_eq_some_iff.1 hr
  cases hr
  have hleads : Leads (place specifier file) resolved := by
    unfold resolveModule? at hmodule
    split_ifs at hmodule
    dsimp only at hmodule
    split at hmodule
    · rename_i found hfound
      cases hmodule
      exact leads_of_mem_candidates (Path.normalize_normalize _) habs (List.mem_of_find?_eq_some hfound)
    · split_ifs at hmodule
      cases hmodule
      exact .same rfl
  refine ⟨resolved, hleads, ?_⟩
  rw [MemoryHost.canonical_eq, Path.stack_normalize]
  unfold sourceFile? at hsource
  split_ifs at hsource
  · obtain ⟨n, hn, rfl⟩ := List.mem_map.1 (List.mem_of_find?_eq_some hsource)
    exact Or.inr ⟨n, hn, stack_join_index hn⟩
  · cases hsource
    exact Or.inl rfl

theorem backslash_notMem_of_probed {n m : String} (h : Probed n m) (hm : '\\' ∉ m.toList) : '\\' ∉ n.toList := by
  cases h with
  | script s =>
    rw [String.toList_append, List.mem_append, not_or] at hm ⊢
    exact ⟨hm.1, by decide⟩
  | added he =>
    rw [String.toList_append, List.mem_append, not_or] at hm
    exact hm.1

/-- a file without backslashes is found at a place without them -/
theorem Leads.backslash_notMem {place found : Path} (h : Leads place found)
    (hf : ∀ n, Component.name n ∈ found.stack → '\\' ∉ n.toList) :
    ∀ n, Component.name n ∈ place.stack → '\\' ∉ n.toList := by
  intro n hn
  cases h with
  | same h => exact hf n (h ▸ hn)
  | @renamed n' m rest hplace hfound hprobed =>
    rw [hfound] at hf
    rw [hplace] at hn
    rcases List.mem_cons.1 hn with heq | hn
    · cases heq
      exact backslash_notMem_of_probed hprobed (hf m List.mem_cons_self)
    · exact hf n (List.mem_cons_of_mem _ hn)
  | atRoot _ hplace _ =>
    rw [hplace] at hn
    cases List.mem_singleton.1 hn

theorem backslash_notMem_of_resolve {h : MemoryHost} {specifier : String} {file target : Path}
    (hr : resolveDependency? h specifier file = some target) (habs : (place specifier file).isAbsolute = true)
    (ht : ∀ n, Component.name n ∈ target.stack → '\\' ∉ n.toList) :
    ∀ n, Component.name n ∈ (place specifier file).stack → '\\' ∉ n.toList := by
  obtain ⟨found, hleads, htarget | ⟨i, -, htarget⟩⟩ := exists_leads_of_resolve hr habs
  · exact hleads.backslash_notMem (htarget ▸ ht)
  · rw [htarget] at ht
    exact hleads.backslash_notMem fun n hn => ht n (List.mem_cons_of_mem _ hn)

/-! ## Below a directory -/

/-- the place of a specifier, read from the source, is at the names that it has below the root -/
theorem at_place {source dir : Path} (hn : source.normalize = source) (hsource : source.isAbsolute = true)
    {ns : List String} {n : String} (hat : At source dir (ns ++ [n])) {specifier : String} {rs : List String}
    (hrs : ∀ p d : Path, At p d ns → At (p.join ⟨specifier⟩) d rs) :
    (place specifier source).isAbsolute = true ∧ At (place specifier source) dir rs := by
  obtain ⟨d, hd, hdabs, hdat⟩ := hat.exists_parent hn hsource
  rw [place, hd, Option.getD_some]
  exact ⟨Path.isAbsolute_normalize (Path.isAbsolute_join hdabs), (hrs d dir hdat).normalize⟩

/-- **The names of the file that a specifier leads to:** those of its place, those with another last name, or more -/
theorem names_of_resolve {h : MemoryHost} {specifier : String} {file target dir : Path}
    (hr : resolveDependency? h specifier file = some target) (habs : (place specifier file).isAbsolute = true)
    {ns ms : List String} {m : String} (hplace : At (place specifier file) dir ns)
    (htarget : At target dir (ms ++ [m])) :
    ms ++ [m] = ns ∨ (∃ n, ns = ms ++ [n] ∧ Probed n m) ∨ (ns.length ≤ ms.length ∧ bareName m ≠ ".") := by
  obtain ⟨found, hleads, htarget' | ⟨i, hi, htarget'⟩⟩ := exists_leads_of_resolve hr habs
  · cases hleads with
    | same hsame => exact Or.inl (htarget.inj hplace (htarget'.trans hsame))
    | @renamed n m' rest hstack hfound hprobed =>
      obtain ⟨rfl, hrest⟩ := htarget.concat_inj (htarget'.trans hfound)
      cases ns using List.reverseRecOn with
      | nil =>
        -- the directory itself under another last name is not below it
        have hdir : dir.stack = .name n :: rest := hplace.symm.trans hstack
        have hlength := congrArg List.length hrest
        rw [hdir, List.length_append, List.length_cons] at hlength
        omega
      | append_singleton ns n' =>
        obtain ⟨rfl, hrest'⟩ := hplace.concat_inj hstack
        have hnames : ns = ms := Path.names_inj (hrest'.symm.trans hrest)
        exact Or.inr (Or.inl ⟨n', by rw [hnames], hprobed⟩)
    | @atRoot ending he hstack hfound =>
      obtain ⟨rfl, hrest⟩ := htarget.concat_inj (htarget'.trans hfound)
      have hbare : ∀ e ∈ probeEndings, bareName e ≠ "." := by decide
      refine Or.inr (Or.inr ⟨?_, hbare m he⟩)
      -- only the root has the stack of the root
      have hlength := congrArg List.length (hplace.symm.trans hstack)
      have hlength' := congrArg List.length hrest
      simp at hlength hlength'
      omega
  · obtain ⟨rfl, hrest⟩ := htarget.concat_inj htarget'
    have hbare : ∀ n ∈ indexFiles, bareName n ≠ "." := by decide
    refine Or.inr (Or.inr ⟨?_, hbare m hi⟩)
    have hlength := hleads.length_le
    rw [hplace, hrest] at hlength
    simpa using hlength

/-- **The names of a place and of the file found for it agree exactly if the two agree without their endings.** -/
theorem nameOf_eq_iff_of_resolve {h : MemoryHost} {specifier : String} {file target dir : Path}
    (hr : resolveDependency? h specifier file = some target) (habs : (place specifier file).isAbsolute = true)
    {ns ms : List String} {m : String} (hplace : At (place specifier file) dir ns) (htarget : At target dir (ms ++ [m]))
    (hback : ∀ n, Component.name n ∈ target.stack → '\\' ∉ n.toList) (hdecl : NoDeclaration m.toList) :
    nameOf ns = nameOf (ms ++ [m]) ↔ (ofNames ns).withoutSourceEnding = (ofNames (ms ++ [m])).withoutSourceEnding := by
  have hproper : ∀ {p : Path} {ks : List String}, At p dir ks → (∀ n, Component.name n ∈ p.stack → '\\' ∉ n.toList) →
      Policy.Proper ks := by
    intro p ks hat hslash n hn
    refine ⟨hat.plain n hn, hslash n ?_⟩
    rw [hat]
    exact List.mem_append_left _ (List.mem_reverse.2 (List.mem_map_of_mem hn))
  have hns := hproper hplace (backslash_notMem_of_resolve hr habs hback)
  have hms := hproper htarget hback
  rcases names_of_resolve hr habs hplace htarget with rfl | ⟨n, rfl, hprobed⟩ | ⟨hlength, hdot⟩
  · exact ⟨fun _ => rfl, fun _ => rfl⟩
  · exact Policy.nameOf_eq_iff_of_probed hprobed hns hms hdecl
  · -- the file is deeper than the place, so its name is longer
    have hne := Policy.nameOf_ne_of_length hns hms hlength hdot
    refine ⟨fun heq => absurd heq hne, fun heq => absurd ?_ hne⟩
    rw [nameOf, nameOf, heq]

end ClosurePipeline.Host
