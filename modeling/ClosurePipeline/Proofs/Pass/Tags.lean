/-
Tags of doc comments: which ones a declaration needs, and that what the pass writes into a comment is found again when
the comment is read, and nothing that stood there is lost.

- `Needs`: the tags of a declaration as texts, by rules; `exists_mem_tagsFor_iff`: they are those computed for it;
- `tagsOf_append_cons`: words end at separators, so a text that is cut at one has the tags of its two parts;
- `name_mem_tagsOf`: a tag is read by its name;
- `name_mem_tagsOf_lines`: so it is on a line of its own among others.
-/
import Mathlib.Tactic
import ClosurePipeline.Pass.ClosureDocs

namespace ClosurePipeline

namespace DocComment

theorem tagsOf_append_cons {c : Char} (hc : isSeparator c = true) (xs ys : List Char) :
    tagsOf (xs ++ c :: ys) = tagsOf xs ++ tagsOf ys := by
  rw [tagsOf, List.splitOnP_append_cons xs ys hc, List.filterMap_append]
  rfl

theorem tagsOf_append_of_separators {zs : List Char} (h : ∀ c ∈ zs, isSeparator c = true) (xs : List Char) :
    tagsOf (xs ++ zs) = tagsOf xs := by
  induction zs generalizing xs with
  | nil => rw [List.append_nil]
  | cons c zs ih =>
    have hzs := ih (fun d hd => h d (List.mem_cons_of_mem _ hd)) []
    rw [tagsOf_append_cons (h c List.mem_cons_self), ← List.nil_append zs, hzs]
    exact List.append_nil _

/-- a text is read with all its tags when more follows behind a separator -/
theorem tagsOf_subset_append_cons {c : Char} (hc : isSeparator c = true) (xs ys : List Char) :
    tagsOf xs ⊆ tagsOf (xs ++ c :: ys) := by
  rw [tagsOf_append_cons hc]
  exact List.subset_append_left _ _

end DocComment

namespace Pass.ClosureDocs

open DocComment

/-! ## Tags that are needed -/

/-- a tag that a declaration needs, as a comment has it: the base class and the interfaces that are known, what kind of
declaration it is, and that it is exported; none whose name its comment has already -/
inductive Needs (cx : Context) (file : Path) (d : Declaration) : String → Prop where
  | base {type : String} {s : Symbol} (hkind : d.kind = .classDecl) (hfirst : d.heritage.extended.head? = some type)
      (hs : cx.symbol? file type = some s) (hclass : s.kind = .classDecl) (hnew : d.hasTag "extends" = false) :
    Needs cx file d ("@extends \x7b" ++ type ++ "\x7d")
  | implemented {type : String} {s : Symbol} (hkind : d.kind = .classDecl) (htype : type ∈ d.heritage.implemented)
      (hs : cx.symbol? file type = some s) (hknown : s.kind = .interfaceDecl ∨ s.kind = .classDecl)
      (hnew : d.hasTag "implements" = false) : Needs cx file d ("@implements \x7b" ++ type ++ "\x7d")
  | record (hkind : d.kind = .interfaceDecl) (hnew : d.hasTag "record" = false) : Needs cx file d "@record"
  | extended {type : String} {s : Symbol} (hkind : d.kind = .interfaceDecl) (htype : type ∈ d.heritage.extended)
      (hs : cx.symbol? file type = some s) (hknown : s.kind = .interfaceDecl) (hnew : d.hasTag "extends" = false) :
    Needs cx file d ("@extends \x7b" ++ type ++ "\x7d")
  | enumeration (hkind : d.kind = .enumDecl) (hnew : d.hasTag "enum" = false) : Needs cx file d "@enum \x7bnumber\x7d"
  | exported (hexported : d.exported = true) (hkind : d.kind ≠ .typeAlias) (hnew : d.hasTag "export" = false) :
    Needs cx file d "@export"

section

variable {cx : Context} {file : Path} {d : Declaration}

theorem resolvesTo_iff {kinds : List DeclKind} {name : String} :
    resolvesTo cx file kinds name = true ↔ ∃ s, cx.symbol? file name = some s ∧ s.kind ∈ kinds := by
  rw [resolvesTo]
  cases cx.symbol? file name with
  | none => simp
  | some s => simp

theorem mem_classTags_iff {t : Tag} : t ∈ classTags cx file d ↔
    (∃ type, t = .extending type ∧ d.heritage.extended.head? = some type ∧
      resolvesTo cx file [.classDecl] type = true) ∨
      ∃ type, t = .implementing type ∧ type ∈ d.heritage.implemented ∧
        resolvesTo cx file [.interfaceDecl, .classDecl] type = true := by
  have hfirst : ∀ type, type ∈ d.heritage.extended.take 1 ↔ d.heritage.extended.head? = some type := by
    intro type
    cases d.heritage.extended <;> simp [eq_comm]
  simp only [classTags, List.mem_append, List.mem_map, List.mem_filter, hfirst]
  constructor
  · rintro (⟨type, ⟨h, hr⟩, rfl⟩ | ⟨type, ⟨h, hr⟩, rfl⟩)
    · exact .inl ⟨type, rfl, h, hr⟩
    · exact .inr ⟨type, rfl, h, hr⟩
  · rintro (⟨type, rfl, h, hr⟩ | ⟨type, rfl, h, hr⟩)
    · exact .inl ⟨type, ⟨h, hr⟩, rfl⟩
    · exact .inr ⟨type, ⟨h, hr⟩, rfl⟩

theorem Needs.exists_tag {text : String} (h : Needs cx file d text) : ∃ t ∈ tagsFor cx file d, t.text = text := by
  have htag : ∀ t ∈ allTags cx file d, d.hasTag t.name = false → ∃ t' ∈ tagsFor cx file d, t'.text = t.text :=
    fun t ht hnew => ⟨t, List.mem_filter.2 ⟨ht, by simp [hnew]⟩, rfl⟩
  cases h with
  | @base type s hkind hfirst hs hclass hnew =>
    refine htag (.extending type) ?_ hnew
    simp [allTags, hkind, mem_classTags_iff, hfirst, resolvesTo_iff, hs, hclass]
  | @implemented type s hkind htype hs hknown hnew =>
    refine htag (.implementing type) ?_ hnew
    simp [allTags, hkind, mem_classTags_iff, htype, resolvesTo_iff, hs, hknown]
  | record hkind hnew => exact htag .record (by simp [allTags, hkind, interfaceTags]) hnew
  | @extended type s hkind htype hs hknown hnew =>
    refine htag (.extending type) ?_ hnew
    simp [allTags, hkind, interfaceTags, htype, resolvesTo_iff, hs, hknown]
  | enumeration hkind hnew => exact htag .enumeration (by simp [allTags, hkind]) hnew
  | exported hexported hkind hnew => exact htag .exporting (by simp [allTags, hexported, hkind]) hnew

theorem needs_of_mem_tagsFor {t : Tag} (h : t ∈ tagsFor cx file d) : Needs cx file d t.text := by
  obtain ⟨ht, hnew⟩ := List.mem_filter.1 h
  replace hnew : d.hasTag t.name = false := by simpa using hnew
  rcases List.mem_append.1 ht with ht | ht
  · cases hkind : d.kind with
    | classDecl =>
      rw [hkind] at ht
      rcases mem_classTags_iff.1 ht with ⟨type, rfl, hfirst, hr⟩ | ⟨type, rfl, htype, hr⟩
      · obtain ⟨s, hs, hclass⟩ := resolvesTo_iff.1 hr
        exact .base hkind hfirst hs (List.mem_singleton.1 hclass) hnew
      · obtain ⟨s, hs, hknown⟩ := resolvesTo_iff.1 hr
        exact .implemented hkind htype hs (by simpa using hknown) hnew
    | interfaceDecl =>
      rw [hkind] at ht
      rcases List.mem_cons.1 ht with rfl | ht
      · exact .record hkind hnew
      · obtain ⟨type, htype, rfl⟩ := List.mem_map.1 ht
        obtain ⟨htype, hr⟩ := List.mem_filter.1 htype
        obtain ⟨s, hs, hknown⟩ := resolvesTo_iff.1 hr
        exact .extended hkind htype hs (List.mem_singleton.1 hknown) hnew
    | enumDecl =>
      rw [hkind] at ht
      obtain rfl := List.mem_singleton.1 ht
      exact .enumeration hkind hnew
    | functionDecl | variableDecl | typeAlias =>
      rw [hkind] at ht
      cases ht
  · split_ifs at ht with hexported
    · obtain ⟨hexported, hkind⟩ : d.exported = true ∧ d.kind ≠ .typeAlias := by simpa using hexported
      obtain rfl := List.mem_singleton.1 ht
      exact .exported hexported hkind hnew
    · cases ht

/-- **The tags computed for a declaration are those it needs.** -/
theorem exists_mem_tagsFor_iff {text : String} : (∃ t ∈ tagsFor cx file d, t.text = text) ↔ Needs cx file d text :=
  ⟨fun ⟨_, ht, htext⟩ => htext ▸ needs_of_mem_tagsFor ht, Needs.exists_tag⟩

end

/-! ## Tags in comments -/

theorem name_mem_tagsOf (t : Tag) : t.name ∈ tagsOf t.text.toList := by
  have hname : t.name ∈ tagsOf ("@" ++ t.name).toList := by cases t <;> (simp only [Tag.name]; decide)
  rw [Tag.text_eq]
  cases t.type? with
  | none => rwa [Option.elim_none, String.append_empty]
  | some type =>
    -- the type stands behind a blank, so the name is a word by itself
    have htext : ("@" ++ t.name ++ (" \x7b" ++ type ++ "\x7d")).toList =
        ("@" ++ t.name).toList ++ ' ' :: ('{' :: (type.toList ++ ['}'])) := by simp
    rw [Option.elim_some, htext]
    exact tagsOf_subset_append_cons (by decide) _ _ hname

/-- a tag between separators is read -/
theorem name_mem_tagsOf_append {a b : Char} (ha : isSeparator a = true) (hb : isSeparator b = true) (t : Tag)
    (front back : List Char) :
    t.name ∈ tagsOf (front ++ a :: (t.text.toList ++ b :: back)) := by
  rw [tagsOf_append_cons ha, tagsOf_append_cons hb]
  exact List.mem_append_right _ (List.mem_append_left _ (name_mem_tagsOf t))

/-- the lines of tags, each behind the same characters -/
def linesOf (lead : List Char) (tags : List Tag) : List Char :=
  tags.flatMap fun t => lead ++ ' ' :: (t.text.toList ++ ['\n'])

theorem name_mem_tagsOf_lines {tags : List Tag} {t : Tag} (ht : t ∈ tags) (front lead back : List Char) :
    t.name ∈ tagsOf (front ++ (linesOf lead tags ++ back)) := by
  obtain ⟨before, behind, rfl⟩ := List.append_of_mem ht
  have hsplit : front ++ (linesOf lead (before ++ t :: behind) ++ back) =
      (front ++ (linesOf lead before ++ lead)) ++ ' ' :: (t.text.toList ++ '\n' :: (linesOf lead behind ++ back)) := by
    simp [linesOf]
  rw [hsplit]
  exact name_mem_tagsOf_append (by decide) (by decide) t _ _

/-- a line break in front of each line and one behind all -/
theorem break_linesOf (lead back : List Char) (tags : List Tag) :
    (tags.flatMap fun t => '\n' :: (lead ++ ' ' :: t.text.toList)) ++ '\n' :: back =
      '\n' :: (linesOf lead tags ++ back) := by
  induction tags with
  | nil => rfl
  | cons t tags ih =>
    rw [List.flatMap_cons, List.append_assoc, ih]
    simp [linesOf]

end Pass.ClosureDocs

end ClosurePipeline
