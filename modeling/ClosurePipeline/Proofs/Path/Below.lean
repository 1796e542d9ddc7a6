/-
Paths below a directory, by their names. The names say what the relative path is, where a specifier read below the
directory leads, and what is left without the ending of a source file.

- `ofNames`, `At`: the relative path of names, and a path at these names below a directory; `relativeTo_of_at` leads
  from one to the other;
- `foldl_append_of_inside`: a specifier that does not climb out leads to the same names below every directory;
- `exists_parent_of_stack`, `exists_text_of_stack`: a normal path as its directory and its last name;
- `withoutSourceEnding_append`, `bareName`: only the last name loses its ending.
-/
import Mathlib.Data.Set.List
import Mathlib.Tactic
import ClosurePipeline.Path.Naming
import ClosurePipeline.Proofs.Host.Outputs
import ClosurePipeline.Proofs.Path.Relative

namespace ClosurePipeline.Path

/-! ## Names -/

/-- the relative path of names -/
def ofNames (ns : List String) : Path := ofComponents (ns.map .name)

/-- `p` is at these names below `d` -/
def At (p d : Path) (ns : List String) : Prop := p.stack = (ns.map Component.name).reverse ++ d.stack

theorem At.plain {p d : Path} {ns : List String} (h : At p d ns) : ∀ n ∈ ns, (Component.name n).Plain := by
  intro n hn
  apply @plain_of_mem_stack p
  rw [h]
  exact List.mem_append_left _ (List.mem_reverse.2 (List.mem_map_of_mem hn))

theorem backslash_notMem_stack {p : Path} (hp : p.isAbsolute = true) (h : '\\' ∉ p.text.toList) :
    ∀ n, Component.name n ∈ p.stack → '\\' ∉ n.toList := by
  intro n hn hc
  rw [stack_of_isAbsolute hp] at hn
  rcases mem_foldl_resolveStep hn with hmem | hmem
  · cases List.mem_singleton.1 hmem
  · exact h (mem_of_mem_text_stretch hmem hc)

/-- names in front of a stack are determined by it -/
theorem names_inj {ns ms : List String} {rest : List Component}
    (h : (ns.map Component.name).reverse ++ rest = (ms.map Component.name).reverse ++ rest) : ns = ms := by
  have hnames := List.reverse_injective (List.append_cancel_right h)
  exact List.map_injective_iff.2 (fun a b hab => Component.name.inj hab) hnames

theorem At.inj {p q d : Path} {ns ms : List String} (hp : At p d ns) (hq : At q d ms) (h : p.stack = q.stack) :
    ns = ms := by
  rw [hp, hq] at h
  exact names_inj h

theorem At.normalize {p d : Path} {ns : List String} (h : At p d ns) : At p.normalize d ns := by
  rw [At, stack_normalize]
  exact h

/-- the last name is on top of the stack -/
theorem At.stack_concat {p d : Path} {ns : List String} {n : String} (h : At p d (ns ++ [n])) :
    p.stack = .name n :: ((ns.map Component.name).reverse ++ d.stack) := by
  rw [h]
  simp

theorem At.concat_inj {p d : Path} {ns : List String} {n m : String} {rest : List Component} (hp : At p d (ns ++ [n]))
    (h : p.stack = .name m :: rest) : n = m ∧ rest = (ns.map Component.name).reverse ++ d.stack := by
  rw [hp.stack_concat, List.cons.injEq, Component.name.injEq] at h
  exact ⟨h.1, h.2.symm⟩

/-- a path beneath another is at names below it -/
theorem exists_at_of_beneath {p d : Path} (hp : p.isAbsolute = true) (hd : d.isAbsolute = true) (h : p.Beneath d) :
    ∃ ns n, At p d (ns ++ [n]) := by
  obtain ⟨ms, hms, -⟩ := rooted_stack hp
  obtain ⟨ds, hds, -⟩ := rooted_stack hd
  obtain ⟨above, habove⟩ := startsWith_normalize_iff.1 h.1
  have hnames : above ++ ds.map Component.name = ms.map Component.name := by
    rw [hds, hms, ← List.append_assoc] at habove
    exact List.append_cancel_right habove
  obtain ⟨l, l', -, hl, -⟩ := List.map_eq_append_iff.1 hnames.symm
  cases l with
  | nil =>
    rw [List.map_nil] at hl
    rw [← hl, List.nil_append] at habove
    exact absurd (same_normalize_iff.2 habove.symm) h.2
  | cons n ns =>
    refine ⟨ns.reverse, n, ?_⟩
    rw [At, ← habove, ← hl]
    simp

theorem isAbsolute_normalize {p : Path} (h : p.isAbsolute = true) : p.normalize.isAbsolute = true := by
  obtain ⟨ns, hns, -⟩ := rooted_stack h
  rw [normalize_eq, hns, List.reverse_append, isAbsolute]
  change ((ofComponents (.root :: (ns.map Component.name).reverse)).text.toList.head? == some '/') = true
  rw [toList_text_root]
  rfl

/-- **The relative path of a path below a directory** is the path of its names. -/
theorem relativeTo_of_at {p d : Path} (hp : p.isAbsolute = true) (hd : d.isAbsolute = true) {ns : List String}
    (h : At p d ns) :
    d.relativeTo p = ofNames ns := by
  have hfork : Fork d p d.stack.reverse [] ns := by
    refine ⟨by rw [components_normalize]; simp, ?_, by simp⟩
    rw [components_normalize, h, List.reverse_append, List.reverse_reverse]
  exact hfork.relativeTo_eq hd hp

/-- an ending behind a joined path -/
theorem join_append {p : Path} (hp : p.isAbsolute = false) (hne : p.text.toList ≠ []) (d : Path) (s : String) :
    (⟨(d.join p).text ++ s⟩ : Path) = d.join ⟨p.text ++ s⟩ := by
  have hp' : isAbsolute ⟨p.text ++ s⟩ = false := by rw [Emitter.isAbsolute_append hne, hp]
  apply eq_of_toList_text
  change ((d.join p).text ++ s).toList = (d.join ⟨p.text ++ s⟩).text.toList
  rw [String.toList_append, toList_text_join d hp, toList_text_join d hp', String.toList_append]
  split_ifs <;> simp

section Names

variable {ns : List String} (hns : ∀ n ∈ ns, (Component.name n).Plain)

include hns

theorem plain_map_name : ∀ c ∈ ns.map Component.name, c.Plain := by
  intro c hc
  obtain ⟨n, hn, rfl⟩ := List.mem_map.1 hc
  exact hns n hn

theorem toList_text_ofNames : (ofNames ns).text.toList = ['/'].intercalate (ns.map String.toList) := by
  rw [ofNames, toList_text_plain (plain_map_name hns), List.map_map]
  rfl

theorem stretch_ofNames : stretch (ofNames ns).text.toList = ns.map Component.name := by
  rw [ofNames, toList_text_plain (plain_map_name hns), stretch_intercalate (plain_map_name hns)]

theorem isAbsolute_ofNames : (ofNames ns).isAbsolute = false := isAbsolute_ofComponents (plain_map_name hns)

theorem at_join_ofNames (d : Path) : At (d.join (ofNames ns)) d ns := by
  rw [At, stack_join d (isAbsolute_ofNames hns), stretch_ofNames hns, foldl_names]

theorem stack_ofNames : (ofNames ns).stack = (ns.map Component.name).reverse := by
  rw [stack_eq, isAbsolute_ofNames hns, stretch_ofNames hns, foldl_names]
  exact List.append_nil _

end Names

/-- names with a slash behind each -/
def slashed (ns : List String) : List Char := ns.flatMap fun n => n.toList ++ ['/']

theorem intercalate_concat (ns : List String) (m : List Char) :
    ['/'].intercalate (ns.map String.toList ++ [m]) = slashed ns ++ m := by
  induction ns with
  | nil => simp [slashed]
  | cons n ns ih =>
    rw [List.map_cons, List.cons_append, List.intercalate_cons_of_ne_nil (by simp), ih]
    simp [slashed]

theorem ofNames_concat {ns : List String} {n : String} (h : ∀ m ∈ ns ++ [n], (Component.name m).Plain) :
    ofNames (ns ++ [n]) = ⟨String.ofList (slashed ns ++ n.toList)⟩ := by
  have htext := toList_text_ofNames h
  rw [List.map_append, List.map_singleton, intercalate_concat] at htext
  rw [← htext, String.ofList_toList]

/-- nothing, or characters with a slash at their end -/
def EndsOpen (cs : List Char) : Prop := cs = [] ∨ cs.getLast? = some '/'

theorem endsOpen_slashed (ns : List String) : EndsOpen (slashed ns) := by
  induction ns using List.reverseRecOn with
  | nil => exact Or.inl rfl
  | append_singleton ns n _ => exact Or.inr (by simp [slashed])

/-! ## Specifiers that stay inside -/

theorem up_mem_resolveStep {st : List Component} (h : .up ∈ st) (c : Component) : .up ∈ resolveStep st c := by
  cases c with
  | here => exact h
  | root => exact List.mem_cons_of_mem _ h
  | name s => exact List.mem_cons_of_mem _ h
  | up =>
    cases st with
    | nil => cases h
    | cons d st =>
      cases d with
      | name s => exact (List.mem_cons.1 h).resolve_left (by simp)
      | root => exact h
      | here => exact List.mem_cons_self
      | up => exact List.mem_cons_self

theorem up_mem_foldl (cs : List Component) : ∀ {st : List Component}, .up ∈ st → .up ∈ cs.foldl resolveStep st := by
  induction cs with
  | nil => intro st h; exact h
  | cons c cs ih => intro st h; exact ih (up_mem_resolveStep h c)

/-- **What does not climb out leads to the same names everywhere.** -/
theorem foldl_append_of_inside (base cs : List Component) : ∀ {st : List Component}, .up ∉ cs.foldl resolveStep st →
    cs.foldl resolveStep (st ++ base) = cs.foldl resolveStep st ++ base := by
  induction cs with
  | nil => intro st _; rfl
  | cons c cs ih =>
    intro st h
    have hstep : resolveStep (st ++ base) c = resolveStep st c ++ base := by
      cases c with
      | up =>
        cases st with
        | nil => exact absurd (up_mem_foldl cs (List.mem_singleton.2 rfl : Component.up ∈ resolveStep [] .up)) h
        | cons d st => cases d <;> rfl
      | _ => rfl
    rw [List.foldl_cons, List.foldl_cons, hstep]
    exact ih h

/-- names, and what leads on from them without climbing out, are names -/
theorem exists_names_of_inside (ns : List String) (cs : List Char)
    (h : .up ∉ (stretch cs).foldl resolveStep (ns.map Component.name).reverse) :
    ∃ ms : List String, (stretch cs).foldl resolveStep (ns.map Component.name).reverse =
      (ms.map Component.name).reverse := by
  have hnames : ∀ c ∈ (stretch cs).foldl resolveStep (ns.map Component.name).reverse, ∃ m, Component.name m = c := by
    intro c hc
    rcases mem_foldl_resolveStep hc with hmem | hmem
    · obtain ⟨m, -, rfl⟩ := List.mem_map.1 (List.mem_reverse.1 hmem)
      exact ⟨m, rfl⟩
    · have hplain := plain_of_mem_stretch hmem
      cases c with
      | name m => exact ⟨m, rfl⟩
      | up => exact absurd hc h
      | root => exact hplain.elim
      | here => exact hplain.elim
  have hrange : ((stretch cs).foldl resolveStep (ns.map Component.name).reverse).reverse ∈
      Set.range (List.map Component.name) := by
    rw [Set.range_list_map]
    exact fun c hc => hnames c (List.mem_reverse.1 hc)
  obtain ⟨ms, hms⟩ := hrange
  exact ⟨ms, by rw [hms, List.reverse_reverse]⟩

/-! ## A directory and a last name -/

section

variable {p : Path} (hn : p.normalize = p) (hp : p.isAbsolute = true) {n : String} {rest : List Component}
  (h : p.stack = .name n :: rest)

include hn hp h

/-- a normal path spells its names out -/
theorem exists_stretch_of_stack : ∃ ms : List String,
    stretch p.text.toList = ms.map Component.name ++ [.name n] ∧ rest = (ms.map Component.name).reverse ++ [.root] := by
  obtain ⟨ms, hms, -⟩ := rooted_stack hp
  cases ms with
  | nil =>
    rw [hms] at h
    cases h
  | cons m ms =>
    rw [hms, List.map_cons, List.cons_append, List.cons.injEq, Component.name.injEq] at h
    refine ⟨ms.reverse, ?_, by simp [h.2]⟩
    have hcomponents := components_normalize p
    rw [hn, components_eq, leadComponents_of_isAbsolute hp, hms, h.1] at hcomponents
    simpa using hcomponents

theorem exists_parent_of_stack : ∃ d, p.parent? = some d ∧ d.isAbsolute = true ∧ d.stack = rest := by
  obtain ⟨ms, hstretch, hrest⟩ := exists_stretch_of_stack hn hp h
  obtain ⟨d, hd, habs, hds⟩ := exists_parent? hp hstretch
  refine ⟨d, hd, habs, ?_⟩
  rw [stack_of_isAbsolute habs, hds, foldl_names, hrest]

end

/-- the parent of a path below a directory is at all names but the last -/
theorem At.exists_parent {p d : Path} (hn : p.normalize = p) (hp : p.isAbsolute = true) {ns : List String} {n : String}
    (h : At p d (ns ++ [n])) :
    ∃ above, p.parent? = some above ∧ above.isAbsolute = true ∧ At above d ns :=
  exists_parent_of_stack hn hp h.stack_concat

/-- a normal path as a text in front of its last name; other names can stand there -/
theorem exists_text_of_stack {p : Path} (hn : p.normalize = p) {n : String} {rest : List Component}
    (h : p.stack = .name n :: rest) :
    ∃ start, EndsOpen start ∧ p.text.toList = start ++ n.toList ∧
      ∀ m, (Component.name m).Plain → (⟨String.ofList (start ++ m.toList)⟩ : Path).stack = .name m :: rest := by
  have hstacked := stacked_stack p
  rw [h] at hstacked
  have hrest : Stacked rest := hstacked.2
  let d := ofComponents rest.reverse
  have hd : d.stack = rest := by
    rw [stack, components_ofComponents hrest.writable_reverse, foldl_reverse_of_stacked hrest]
  have hjoin : p = d.join ⟨n⟩ := by
    conv_lhs => rw [← hn, normalize_eq, h, List.reverse_cons]
    exact ofComponents_concat hrest.writable_reverse hstacked.1
  let start := if d.text.toList = [] ∨ d.text.toList.getLast? = some '/' then d.text.toList else d.text.toList ++ ['/']
  have htext : ∀ m, (Component.name m).Plain → (d.join ⟨m⟩).text.toList = start ++ m.toList := by
    intro m hm
    have hrel : isAbsolute ⟨m⟩ = false := @isAbsolute_text (.name m) hm
    rw [toList_text_join d hrel]
    dsimp only [start]
    split_ifs <;> simp
  refine ⟨start, ?_, ?_, fun m hm => ?_⟩
  · dsimp only [start]
    split_ifs with hopen
    · exact hopen
    · exact Or.inr (by simp)
  · rw [hjoin]
    exact htext n hstacked.1
  · have hsame : (⟨String.ofList (start ++ m.toList)⟩ : Path) = d.join ⟨m⟩ := by
      rw [← htext m hm, String.ofList_toList]
    have hrel : isAbsolute ⟨m⟩ = false := @isAbsolute_text (.name m) hm
    rw [hsame, stack_join d hrel]
    change (stretch m.toList).foldl resolveStep d.stack = _
    rw [stretch_segment hm.1, hm.2, hd]
    rfl

/-- the last name of a normal path is its file name -/
theorem fileName?_of_stack {p : Path} (hn : p.normalize = p) {n : String} {rest : List Component}
    (h : p.stack = .name n :: rest) :
    p.fileName? = some n := by
  obtain ⟨start, hstart, htext, -⟩ := exists_text_of_stack hn h
  have hplain : (Component.name n).Plain := plain_of_mem_stack (h ▸ List.mem_cons_self)
  have hname : stretch n.toList = [.name n] := by
    rw [stretch_segment hplain.1, show Component.ofSegment n.toList = some (.name n) from hplain.2]
    rfl
  rcases hstart with rfl | hlast
  · have hstretch : stretch p.text.toList = [] ++ [.name n] := by rw [htext, List.nil_append, hname, List.nil_append]
    exact fileName?_of_stretch hstretch
  · obtain ⟨dir, rfl⟩ := List.getLast?_eq_some_iff.1 hlast
    have hstretch : stretch p.text.toList = stretch dir ++ [.name n] := by
      rw [htext, List.append_assoc, List.singleton_append, stretch_append_slash, hname]
    exact fileName?_of_stretch hstretch

/-! ## Endings of the last name -/

/-- an ending without slashes is an ending of the last name -/
theorem suffix_of_endsOpen {start n ending : List Char} (ho : EndsOpen start) (he : '/' ∉ ending)
    (h : ending <:+ start ++ n) : ending <:+ n := by
  rcases List.suffix_or_suffix_of_suffix h (List.suffix_append start n) with hs | hs
  · exact hs
  · -- else it would reach into the slash in front of the name
    obtain ⟨t, rfl⟩ := hs
    obtain ⟨u, hu⟩ := h
    rw [← List.append_assoc] at hu
    have hstart : u ++ t = start := List.append_cancel_right hu
    rcases eq_or_ne t [] with rfl | hne
    · exact List.suffix_refl _
    · have hlast : start.getLast? = t.getLast? := by rw [← hstart, List.getLast?_append_of_ne_nil _ hne]
      rcases ho with ho | ho
      · rw [ho] at hstart
        exact absurd (List.append_eq_nil_iff.1 hstart).2 hne
      · exact absurd (List.mem_append_left n (List.mem_of_getLast? (hlast ▸ ho))) he

theorem isStem_append {start m : List Char} (ho : EndsOpen start) : isStem (start ++ m) = isStem m := by
  rcases eq_or_ne m [] with rfl | hne
  · rw [List.append_nil]
    rcases ho with rfl | ho
    · rfl
    · rw [isStem, isStem, ho]
      rfl
  · rw [isStem, isStem, List.getLast?_append_of_ne_nil _ hne]

theorem withoutEnding?_of_append (m ending : List Char) : withoutEnding? ending (m ++ ending) = some m := by
  rw [withoutEnding?, if_pos (List.isSuffixOf_iff_suffix.2 (List.suffix_append _ _))]
  simp

theorem withoutEnding?_eq_none {ending cs : List Char} (h : ¬ ending <:+ cs) : withoutEnding? ending cs = none := by
  rw [withoutEnding?, if_neg fun hc => h (List.isSuffixOf_iff_suffix.1 hc)]

theorem eq_of_withoutEnding? {ending cs stem : List Char} (h : withoutEnding? ending cs = some stem) :
    cs = stem ++ ending := by
  unfold withoutEnding? at h
  split_ifs at h with hsuffix
  obtain ⟨t, rfl⟩ := List.isSuffixOf_iff_suffix.1 hsuffix
  cases h
  simp

/-- an ending is taken off the last name -/
theorem filter_withoutEnding?_append {start : List Char} (ho : EndsOpen start) (n : List Char) {ending : List Char}
    (he : '/' ∉ ending) :
    (withoutEnding? ending (start ++ n)).filter isStem =
      ((withoutEnding? ending n).filter isStem).map (start ++ ·) := by
  by_cases hs : ending <:+ n
  · obtain ⟨m, rfl⟩ := hs
    rw [← List.append_assoc, withoutEnding?_of_append, withoutEnding?_of_append, Option.filter_some, Option.filter_some,
      isStem_append ho]
    cases isStem m <;> rfl
  · rw [withoutEnding?_eq_none hs, withoutEnding?_eq_none fun hc => hs (suffix_of_endsOpen ho he hc)]
    rfl

/-- a name without the ending of a source file -/
def bareName (n : String) : String := (withoutSourceEnding ⟨n⟩).text

theorem slash_notMem_of_mem_sourceEndings {ending : String} (h : ending ∈ sourceEndings) : '/' ∉ ending.toList := by
  revert ending
  decide

/-- **Only the last name of a path loses its ending.** -/
theorem withoutSourceEnding_append {start : List Char} (ho : EndsOpen start) (n : String) :
    withoutSourceEnding ⟨String.ofList (start ++ n.toList)⟩ = ⟨String.ofList (start ++ (bareName n).toList)⟩ := by
  have hstems : (sourceEndings.filterMap fun e => (withoutEnding? e.toList (start ++ n.toList)).filter isStem) =
      (sourceEndings.filterMap fun e => (withoutEnding? e.toList n.toList).filter isStem).map (start ++ ·) := by
    rw [List.map_filterMap]
    refine List.filterMap_congr fun e he => ?_
    exact filter_withoutEnding?_append ho n.toList (slash_notMem_of_mem_sourceEndings he)
  unfold bareName withoutSourceEnding
  dsimp only
  rw [String.toList_ofList, hstems]
  cases sourceEndings.filterMap fun e => (withoutEnding? e.toList n.toList).filter isStem with
  | nil => rfl
  | cons stem stems =>
    rw [List.map_cons]
    dsimp only
    rw [String.toList_ofList]

/-- a name is bare, or it is its bare name with an ending behind it -/
theorem bareName_cases (n : String) :
    bareName n = n ∨ ∃ ending ∈ sourceEndings, n = bareName n ++ ending ∧ isStem (bareName n).toList = true := by
  unfold bareName withoutSourceEnding
  dsimp only
  split
  · rename_i stem stems hstems
    have hmem : stem ∈ sourceEndings.filterMap fun e => (withoutEnding? e.toList n.toList).filter isStem :=
      hstems ▸ List.mem_cons_self
    obtain ⟨e, he, hstem⟩ := List.mem_filterMap.1 hmem
    obtain ⟨hstem, hisStem⟩ := Option.filter_eq_some_iff.1 hstem
    refine Or.inr ⟨e, he, ?_, ?_⟩
    · apply String.toList_inj.1
      rw [eq_of_withoutEnding? hstem, String.toList_append, String.toList_ofList]
    · rw [String.toList_ofList]
      exact hisStem
  · exact Or.inl rfl

/-- a bare name has characters of the name, and some -/
theorem bareName_subset (n : String) : ∀ c ∈ (bareName n).toList, c ∈ n.toList := by
  intro c hc
  rcases bareName_cases n with hb | ⟨ending, -, hb, -⟩
  · rwa [hb] at hc
  · rw [hb, String.toList_append]
    exact List.mem_append_left _ hc

theorem bareName_ne_nil {n : String} (h : (Component.name n).Plain) : (bareName n).toList ≠ [] := by
  rcases bareName_cases n with hb | ⟨ending, -, -, hstem⟩
  · rw [hb]
    exact h.text_ne_nil
  · intro hnil
    rw [hnil] at hstem
    cases hstem

/-- the first ending that fits is taken off -/
theorem bareName_of_ending (before after : List String) {ending : String}
    (hlist : sourceEndings = before ++ ending :: after) {m : String} (hm : isStem m.toList = true)
    (hbefore : ∀ e ∈ before, ¬ e.toList <:+ m.toList ++ ending.toList) : bareName (m ++ ending) = m := by
  have hnone :
      (before.filterMap fun e => (withoutEnding? e.toList (m.toList ++ ending.toList)).filter isStem) = [] := by
    refine List.filterMap_eq_nil_iff.2 fun e he => ?_
    rw [withoutEnding?_eq_none (hbefore e he)]
    rfl
  unfold bareName withoutSourceEnding
  dsimp only
  rw [String.toList_append, hlist, List.filterMap_append, hnone, List.nil_append,
    List.filterMap_cons_some (by rw [withoutEnding?_of_append, Option.filter_some, if_pos hm])]
  exact String.ofList_toList

/-- endings that do not end in each other do not fit one text -/
theorem not_suffix_append {a b m : List Char} (hab : ¬ a <:+ b) (hba : ¬ b <:+ a) : ¬ a <:+ m ++ b := by
  intro h
  rcases List.suffix_or_suffix_of_suffix h (List.suffix_append m b) with hs | hs
  · exact hab hs
  · exact hba hs

/-- no ending of a declaration file fits -/
def NoDeclaration (n : List Char) : Prop := ∀ d ∈ declarationEndings, ¬ d.toList <:+ n

theorem bareName_append {m ending : String} (he : ending ∈ [".js", ".ts", ".tsx"]) (hm : isStem m.toList = true)
    (hdecl : NoDeclaration (m.toList ++ ending.toList)) : bareName (m ++ ending) = m := by
  have hfits : ∀ before : List String,
      (∀ e ∈ before, e ∈ declarationEndings ∨ ¬ e.toList <:+ ending.toList ∧ ¬ ending.toList <:+ e.toList) →
      ∀ e ∈ before, ¬ e.toList <:+ m.toList ++ ending.toList := by
    intro before hbefore e he
    rcases hbefore e he with hd | ⟨h1, h2⟩
    · exact hdecl e hd
    · exact not_suffix_append h1 h2
  simp only [List.mem_cons, List.not_mem_nil, or_false] at he
  rcases he with rfl | rfl | rfl
  · exact bareName_of_ending [".d.mts", ".d.cts", ".d.ts", ".tsx", ".mts", ".cts", ".ts", ".jsx", ".mjs", ".cjs"] [] rfl
      hm (hfits _ (by decide))
  · exact bareName_of_ending [".d.mts", ".d.cts", ".d.ts", ".tsx", ".mts", ".cts"] [".jsx", ".mjs", ".cjs", ".js"] rfl
      hm (hfits _ (by decide))
  · exact bareName_of_ending [".d.mts", ".d.cts", ".d.ts"] [".mts", ".cts", ".ts", ".jsx", ".mjs", ".cjs", ".js"] rfl hm
      (hfits _ (by decide))

theorem noDeclaration_script (m : List Char) : NoDeclaration (m ++ ".js".toList) := by
  have hendings : ∀ d ∈ declarationEndings, ¬ d.toList <:+ ".js".toList ∧ ¬ ".js".toList <:+ d.toList := by decide
  intro d hd
  exact not_suffix_append (hendings d hd).1 (hendings d hd).2

theorem isStem_of_notMem {cs : List Char} (hne : cs ≠ []) (hslash : '/' ∉ cs) (hback : '\\' ∉ cs) :
    isStem cs = true := by
  unfold isStem
  cases hlast : cs.getLast? with
  | none => exact absurd (List.getLast?_eq_none_iff.1 hlast) hne
  | some c =>
    have h1 : c ≠ '/' := fun e => hslash (e ▸ List.mem_of_getLast? hlast)
    have h2 : c ≠ '\\' := fun e => hback (e ▸ List.mem_of_getLast? hlast)
    simp [h1, h2]

/-- declaration files are known by their last name -/
theorem isDeclarationFile_iff {p : Path} (hn : p.normalize = p) (hp : p.isAbsolute = true) {n : String}
    {rest : List Component} (h : p.stack = .name n :: rest) : p.isDeclarationFile = false ↔ NoDeclaration n.toList := by
  obtain ⟨ms, hstretch, -⟩ := exists_stretch_of_stack hn hp h
  rw [isDeclarationFile, fileName?_of_stretch hstretch]
  simp [NoDeclaration]

theorem plain_append {m ending : String} (hm : '/' ∉ m.toList) (he : '/' ∉ ending.toList)
    (hlong : 2 < ending.toList.length) :
    (Component.name (m ++ ending)).Plain := by
  have hlength : ∀ s : String, m ++ ending = s → 2 < s.toList.length := by
    rintro s rfl
    rw [String.toList_append, List.length_append]
    omega
  refine Component.plain_name_iff.2 ⟨?_, fun e => ?_, fun e => ?_, fun e => ?_⟩
  · rw [String.toList_append, List.mem_append, not_or]
    exact ⟨hm, he⟩
  · exact absurd (hlength _ e) (by decide)
  · exact absurd (hlength _ e) (by decide)
  · exact absurd (hlength _ e) (by decide)

/-- the path of names without its ending -/
theorem withoutSourceEnding_ofNames {ns : List String} {n : String} (h : ∀ m ∈ ns ++ [n], (Component.name m).Plain) :
    (ofNames (ns ++ [n])).withoutSourceEnding = ⟨String.ofList (slashed ns ++ (bareName n).toList)⟩ := by
  rw [ofNames_concat h, withoutSourceEnding_append (endsOpen_slashed ns)]

end ClosurePipeline.Path
