/-
Module names of paths below a directory.

- `nameOf`: the name of the path of names; `placeName_of_at` says that a policy names a path below the output directory
  so;
- `parts`, `nameOf_eq_iff`: a name is its parts with dots between them, and it determines them up to characters that
  names cannot have;
- `nameOf_ne_of_length`: names of different depth differ;
- `Probed`: a last name and one that probing finds for it. `nameOf_eq_iff_of_probed`: their names agree exactly if they
  agree without their endings.
-/
import Mathlib.Tactic
import ClosurePipeline.Project.Policy
import ClosurePipeline.Proofs.Path.Below

namespace ClosurePipeline

open ClosurePipeline.Path (ofNames At slashed bareName NoDeclaration)

namespace Policy

/-! ## Segments -/

/-- only characters of names stand in a segment of a name -/
theorem isNameChar_of_mem_nameSegment {cs : List Char} {c : Char} (h : c ∈ nameSegment cs) : isNameChar c = true := by
  have hmap : ∀ c ∈ cs.map fun c => if isNameChar c then c else '_', isNameChar c = true := by
    intro c hc
    obtain ⟨d, -, rfl⟩ := List.mem_map.1 hc
    split_ifs with hname
    · exact hname
    · decide
  unfold nameSegment at h
  split_ifs at h
  · rcases List.mem_pair.1 h with rfl | rfl <;> decide
  · dsimp only at h
    split_ifs at h
    · rcases List.mem_cons.1 h with rfl | h
      · decide
      · exact hmap c h
    · exact hmap c h

theorem dot_notMem_nameSegment (cs : List Char) :
    '.' ∉ nameSegment cs := fun h => absurd (isNameChar_of_mem_nameSegment h) (by decide)

/-- a digit in front makes a segment one longer -/
theorem length_nameSegment {cs : List Char} (h : cs ≠ ['.', '.']) :
    (nameSegment cs).length = cs.length + if (cs.head?.map Char.isDigit).getD false then 1 else 0 := by
  have hdigit : ((cs.map fun c => if isNameChar c then c else '_').head?.map Char.isDigit).getD false =
      (cs.head?.map Char.isDigit).getD false := by
    cases cs with
    | nil => rfl
    | cons c cs =>
      simp only [List.map_cons, List.head?_cons, Option.map_some, Option.getD_some]
      split_ifs with hname
      · rfl
      · -- a digit can stand in a name
        have : c.isDigit = false := by
          by_contra hd
          simp [isNameChar, Char.isAlphanum, hd] at hname
        rw [this]
        rfl
  unfold nameSegment
  rw [if_neg h]
  dsimp only
  rw [hdigit]
  split_ifs <;> simp

theorem nameSegment_ne_nil {cs : List Char} (h : cs ≠ []) : nameSegment cs ≠ [] := by
  by_cases hdots : cs = ['.', '.']
  · rw [hdots]
    decide
  · intro hnil
    have hlength := length_nameSegment hdots
    rw [hnil, List.length_nil] at hlength
    have := List.length_pos_iff.2 h
    omega

/-- a module name has characters of names, and dots -/
theorem mem_dottedName {path : String} {c : Char} (h : c ∈ (dottedName path).toList) :
    c = '.' ∨ isNameChar c = true := by
  unfold dottedName at h
  dsimp only at h
  rw [String.toList_ofList] at h
  refine (Path.mem_intercalate h).imp_right fun ⟨l, hl, hc⟩ => ?_
  obtain ⟨s, -, rfl⟩ := List.mem_map.1 hl
  exact isNameChar_of_mem_nameSegment hc

-- other characters become underscores, and a digit in front gets one
example : dottedName "../2d/my-file" = "__._2d.my_file" := by decide +kernel

theorem mem_moduleName {policy : Policy} {context : Path} {specifier : String} {c : Char}
    (h : c ∈ (policy.moduleName context specifier).toList) :
    c = '.' ∨ isNameChar c = true := by
  unfold moduleName placeName at h
  dsimp only at h
  split_ifs at h <;> exact mem_dottedName h

/-- a character of a module id is a slash, a dot or a character of the path -/
theorem mem_moduleId {policy : Policy} {path : Path} {c : Char} (h : c ∈ (policy.moduleId path).toList) :
    c = '/' ∨ c = '.' ∨ c ∈ path.text.toList := by
  rw [moduleId, Path.toSlash, String.toList_map] at h
  obtain ⟨d, hd, rfl⟩ := List.mem_map.1 h
  split_ifs
  · exact Or.inl rfl
  · exact Path.mem_text_relativeTo hd

/-- an ending makes a segment longer -/
theorem nameSegment_ne_of_append {m ending : List Char} (hm : m ≠ []) (he : 2 < ending.length) :
    nameSegment m ≠ nameSegment (m ++ ending) := by
  intro heq
  have hlength := congrArg List.length heq
  have hlong : m ++ ending ≠ ['.', '.'] := by
    intro h
    have := congrArg List.length h
    simp at this
    omega
  have hhead : (m ++ ending).head? = m.head? := by
    cases m with
    | nil => exact absurd rfl hm
    | cons c m => rfl
  rw [length_nameSegment hlong, hhead, List.length_append] at hlength
  by_cases hdots : m = ['.', '.']
  · have htwo : (nameSegment ['.', '.']).length = 2 := by decide
    rw [hdots, htwo, List.length_cons, List.length_cons, List.length_nil] at hlength
    omega
  · rw [length_nameSegment hdots] at hlength
    omega

theorem intercalate_inj {xs ys : List (List Char)} (hx : ∀ x ∈ xs, x ≠ [] ∧ '.' ∉ x) (hy : ∀ y ∈ ys, y ≠ [] ∧ '.' ∉ y)
    (h : ['.'].intercalate xs = ['.'].intercalate ys) : xs = ys := by
  have hsplit : ∀ {zs : List (List Char)}, (∀ z ∈ zs, z ≠ [] ∧ '.' ∉ z) → zs ≠ [] →
      (['.'].intercalate zs).splitOn '.' = zs := fun hz hne =>
    List.splitOn_intercalate _ (fun z hmem => (hz z hmem).2) hne
  -- no names at all are written as nothing, and nothing splits into one empty segment
  have hempty : ∀ {zs : List (List Char)}, (∀ z ∈ zs, z ≠ [] ∧ '.' ∉ z) → ['.'].intercalate zs = [] → zs = [] := by
    intro zs hz hnil
    by_contra hne
    have := hsplit hz hne
    rw [hnil, List.splitOn_nil] at this
    exact (hz [] (this ▸ List.mem_singleton.2 rfl)).1 rfl
  rcases eq_or_ne xs [] with rfl | hxs
  · exact (hempty hy h.symm).symm
  · rcases eq_or_ne ys [] with rfl | hys
    · exact hempty hx h
    · rw [← hsplit hx hxs, h, hsplit hy hys]

/-! ## Names -/

/-- the module name of the path of names -/
def nameOf (ns : List String) : String := dottedName (ofNames ns).withoutSourceEnding.toSlash

/-- a last segment; a dot alone is none -/
def lastPart (m : List Char) : List (List Char) := if m = ['.'] then [] else [m]

/-- what a name is made of: the names of the directories and the bare last name -/
def parts (ns : List String) : List (List Char) :=
  match ns.getLast? with
  | none => []
  | some n => ns.dropLast.map String.toList ++ lastPart (bareName n).toList

theorem parts_concat (ns : List String) (n : String) :
    parts (ns ++ [n]) = ns.map String.toList ++ lastPart (bareName n).toList := by
  simp [parts]

theorem length_parts_le (ns : List String) : (parts ns).length ≤ ns.length := by
  induction ns using List.reverseRecOn with
  | nil => exact Nat.le_refl _
  | append_singleton ns n _ =>
    rw [parts_concat, lastPart]
    split_ifs <;> simp

/-- names as they stand in paths, without backslashes -/
def Proper (ns : List String) : Prop := ∀ n ∈ ns, (Component.name n).Plain ∧ '\\' ∉ n.toList

theorem Proper.plain {ns : List String} (h : Proper ns) : ∀ n ∈ ns, (Component.name n).Plain := fun n hn => (h n hn).1

theorem dottedName_slashed {ns : List String} (hns : ∀ n ∈ ns, (Component.name n).Plain) {m : List Char} (hm : '/' ∉ m)
    (hne : m ≠ []) :
    dottedName (String.ofList (slashed ns ++ m)) =
      String.ofList (['.'].intercalate ((ns.map String.toList ++ lastPart m).map nameSegment)) := by
  have hsplit : (slashed ns ++ m).splitOn '/' = ns.map String.toList ++ [m] := by
    rw [← Path.intercalate_concat]
    refine List.splitOn_intercalate _ (fun l hl => ?_) (by simp)
    rcases List.mem_append.1 hl with hl | hl
    · obtain ⟨n, hn, rfl⟩ := List.mem_map.1 hl
      exact (hns n hn).slash_notMem
    · rw [List.mem_singleton.1 hl]
      exact hm
  have hkeep : ((ns.map String.toList).filter fun s => s ≠ [] && s ≠ ['.']) = ns.map String.toList := by
    rw [List.filter_eq_self]
    intro l hl
    obtain ⟨n, hn, rfl⟩ := List.mem_map.1 hl
    have h1 : n.toList ≠ [] := (hns n hn).text_ne_nil
    have h2 : n.toList ≠ ['.'] := (hns n hn).text_ne_dot
    simp only [ne_eq, h1, h2, not_false_eq_true, decide_true, Bool.and_self]
  have hlast : ([m].filter fun s => s ≠ [] && s ≠ ['.']) = lastPart m := by
    unfold lastPart
    by_cases hdot : m = ['.']
    · simp [hdot]
    · simp [hdot, hne]
  unfold dottedName
  dsimp only
  rw [String.toList_ofList, hsplit, List.filter_append, hkeep, hlast]

/-- **A module name is its parts with dots between them.** -/
theorem nameOf_eq {ns : List String} (h : Proper ns) :
    nameOf ns = String.ofList (['.'].intercalate ((parts ns).map nameSegment)) := by
  induction ns using List.reverseRecOn with
  | nil => decide +kernel
  | append_singleton ns n _ =>
    have hn := h n (by simp)
    have hslash : '/' ∉ (bareName n).toList := fun hc => hn.1.slash_notMem (Path.bareName_subset n _ hc)
    have hback : '\\' ∉ slashed ns ++ (bareName n).toList := by
      intro hc
      rcases List.mem_append.1 hc with hc | hc
      · obtain ⟨d, hd, hc⟩ := List.mem_flatMap.1 hc
        rcases List.mem_append.1 hc with hc | hc
        · exact (h d (List.mem_append_left _ hd)).2 hc
        · cases List.mem_singleton.1 hc
      · exact hn.2 (Path.bareName_subset n _ hc)
    rw [nameOf, Path.withoutSourceEnding_ofNames h.plain, Path.toSlash_eq_text (by rwa [String.toList_ofList]),
      parts_concat,
      dottedName_slashed (fun d hd => (h d (List.mem_append_left _ hd)).1) hslash (Path.bareName_ne_nil hn.1)]

theorem parts_ne_nil {ns : List String} (h : Proper ns) : ∀ x ∈ (parts ns).map nameSegment, x ≠ [] ∧ '.' ∉ x := by
  intro x hx
  obtain ⟨p, hp, rfl⟩ := List.mem_map.1 hx
  refine ⟨nameSegment_ne_nil ?_, dot_notMem_nameSegment p⟩
  induction ns using List.reverseRecOn with
  | nil => cases hp
  | append_singleton ns n _ =>
    rw [parts_concat] at hp
    rcases List.mem_append.1 hp with hp | hp
    · obtain ⟨d, hd, rfl⟩ := List.mem_map.1 hp
      exact (h d (List.mem_append_left _ hd)).1.text_ne_nil
    · unfold lastPart at hp
      split_ifs at hp
      · cases hp
      · rw [List.mem_singleton.1 hp]
        exact Path.bareName_ne_nil (h n (by simp)).1

theorem nameOf_eq_iff {ns ms : List String} (hn : Proper ns) (hm : Proper ms) :
    nameOf ns = nameOf ms ↔ (parts ns).map nameSegment = (parts ms).map nameSegment := by
  rw [nameOf_eq hn, nameOf_eq hm, String.ofList_inj]
  exact ⟨intercalate_inj (parts_ne_nil hn) (parts_ne_nil hm), fun h => by rw [h]⟩

/-- names of different depth differ -/
theorem nameOf_ne_of_length {ns ms : List String} {m : String} (hn : Proper ns) (hm : Proper (ms ++ [m]))
    (hlength : ns.length ≤ ms.length) (hdot : bareName m ≠ ".") : nameOf ns ≠ nameOf (ms ++ [m]) := by
  intro heq
  have hparts := congrArg List.length ((nameOf_eq_iff hn hm).1 heq)
  have hdot' : (bareName m).toList ≠ ['.'] := fun h => hdot (String.toList_inj.1 h)
  rw [List.length_map, List.length_map, parts_concat, lastPart, if_neg hdot', List.length_append, List.length_map,
    List.length_singleton] at hparts
  have := length_parts_le ns
  omega

/-! ## Names that probing finds -/

/-- a last name, and one that probing finds for it -/
inductive Probed : String → String → Prop where
  | script (m : String) : Probed (m ++ ".js") (m ++ ".ts")
  | added (n : String) {ending : String} (he : ending ∈ [".ts", ".tsx", ".d.ts"]) : Probed n (n ++ ending)

theorem length_of_mem_sourceEndings {ending : String} (h : ending ∈ Path.sourceEndings) : 2 < ending.toList.length := by
  revert ending
  decide

/-- the last names lead to one part only if they agree without their endings -/
theorem bareName_eq_of_probed {n m : String} (h : Probed n m) (hn : (Component.name n).Plain ∧ '\\' ∉ n.toList)
    (hm : NoDeclaration m.toList)
    (heq : (lastPart (bareName n).toList).map nameSegment = (lastPart (bareName m).toList).map nameSegment) :
    bareName n = bareName m := by
  cases h with
  | script s =>
    by_cases hs : Path.isStem s.toList = true
    · rw [Path.bareName_append (by simp) hs (Path.noDeclaration_script _),
        Path.bareName_append (by simp) hs (by rwa [← String.toList_append])]
    · -- nothing stands in front of the ending
      have hempty : s = "" := by
        by_contra hne
        refine hs (Path.isStem_of_notMem (fun h => hne (String.toList_eq_nil_iff.1 h)) (fun hc => ?_) fun hc => ?_)
        · exact hn.1.slash_notMem (by rw [Component.text, String.toList_append]; exact List.mem_append_left _ hc)
        · exact hn.2 (by rw [String.toList_append]; exact List.mem_append_left _ hc)
      rw [hempty] at heq
      exact absurd heq (by decide)
  | @added _ ending he =>
    have hending : ending ∈ [".js", ".ts", ".tsx"] := by
      simp only [List.mem_cons, List.not_mem_nil, or_false] at he
      rcases he with rfl | rfl | rfl
      · simp
      · simp
      · exact absurd (by rw [String.toList_append]; exact List.suffix_append _ _) (hm ".d.ts" (by decide))
    have hbare : bareName (n ++ ending) = n :=
      Path.bareName_append hending (Path.isStem_of_notMem hn.1.text_ne_nil hn.1.slash_notMem hn.2)
        (by rwa [← String.toList_append])
    rcases Path.bareName_cases n with hb | ⟨e, hmem, hb, -⟩
    · rw [hb, hbare]
    · -- the ending of the first name is part of the second bare name
      have hne : n.toList ≠ ['.'] := hn.1.text_ne_dot
      rw [hbare, lastPart, lastPart, if_neg hne] at heq
      split_ifs at heq
      · cases heq
      · have hsame : nameSegment (bareName n).toList = nameSegment n.toList := (List.cons.inj heq).1
        have hlong := nameSegment_ne_of_append (Path.bareName_ne_nil hn.1) (length_of_mem_sourceEndings hmem)
        rw [← String.toList_append, ← hb] at hlong
        exact absurd hsame hlong

/-- **The module names of a name and of what probing finds for it agree exactly if the two agree without their
endings.** -/
theorem nameOf_eq_iff_of_probed {ns : List String} {n m : String} (h : Probed n m) (hn : Proper (ns ++ [n]))
    (hm : Proper (ns ++ [m])) (hdecl : NoDeclaration m.toList) :
    nameOf (ns ++ [n]) = nameOf (ns ++ [m]) ↔
    (ofNames (ns ++ [n])).withoutSourceEnding = (ofNames (ns ++ [m])).withoutSourceEnding := by
  constructor
  · intro heq
    have hparts := (nameOf_eq_iff hn hm).1 heq
    rw [parts_concat, parts_concat, List.map_append, List.map_append] at hparts
    have hbare := bareName_eq_of_probed h (hn n (by simp)) hdecl (List.append_cancel_left hparts)
    rw [Path.withoutSourceEnding_ofNames hn.plain, Path.withoutSourceEnding_ofNames hm.plain, hbare]
  · intro heq
    rw [nameOf, nameOf, heq]

/-! ## Places below the output directory -/

theorem rules_moduleName (policy : Policy) (context : Path) (specifier : String) :
    policy.rules.moduleName context specifier = policy.moduleName context specifier := rfl

theorem moduleName_of_isAbsolute (policy : Policy) (context : Path) {p : Path} (h : p.isAbsolute = true) :
    policy.moduleName context p.text = policy.placeName p.normalize := by
  unfold moduleName
  dsimp only
  rw [if_pos h]

theorem moduleName_of_dot (policy : Policy) (context : Path) {specifier : String}
    (hs : Path.isAbsolute ⟨specifier⟩ = false) (hdot : specifier.toList.head? = some '.') :
    policy.moduleName context specifier =
      policy.placeName ((context.parent?.getD .empty).join ⟨specifier⟩).normalize := by
  unfold moduleName
  dsimp only
  rw [if_neg (by simp [hs]), if_pos hdot]

/-- a policy names a path below the output directory by its names there -/
theorem placeName_of_at {policy : Policy} {out p : Path} (hpolicy : policy.outDir = some out.normalize)
    (hout : out.isAbsolute = true) (hp : p.isAbsolute = true) {ns : List String} (h : At p out ns) :
    policy.placeName p.normalize = nameOf ns := by
  have hbase : policy.namingBase p.normalize = out.normalize := by
    have hstarts : p.normalize.startsWith out.normalize = true := Path.startsWith_normalize_iff.2 ⟨_, h.symm⟩
    rw [namingBase, hpolicy]
    exact if_pos hstarts
  have hat : At p.normalize out.normalize ns := by
    rw [At, Path.stack_normalize, Path.stack_normalize]
    exact h
  rw [placeName, hbase, Path.relativeTo_of_at (Path.isAbsolute_normalize hp) (Path.isAbsolute_normalize hout) hat]
  rfl

end Policy

end ClosurePipeline
