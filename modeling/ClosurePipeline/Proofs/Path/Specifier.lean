/-
Paths read from a directory, as paths and as module specifiers. A relative path climbs out of what the directory does
not share with its target and goes down to the target; a specifier is that path with a dot in front, unless it climbs.

- `climbs_iff`: a written list starts with two dots exactly if its first component is two dots, however its first name
  is spelled;
- `dotRelativeTo_eq`: the specifier of a target, by the first component of its relative path;
- `stack_join_dotRelativeTo`: read from the directory, the specifier is its target;
- `relativeTo_leads_back`: path and specifier lead back to the target, by the shortest way.
-/
import Mathlib.Tactic
import ClosurePipeline.Proofs.Path.Relative

namespace ClosurePipeline.Path

/-! ## Specifiers -/

/-- the text starts with the component of two dots -/
def Climbs (s : String) : Prop := ['.', '.', '/'] <+: s.toList ∨ s = ".."

/-- the text starts with a dot or climbs, as a module specifier of a place does -/
def Dotted (s : String) : Prop := ['.', '/'] <+: s.toList ∨ Climbs s

/-- a name may start with two dots, but then it goes on, and the text does not climb -/
theorem climbs_iff {cs : List Component} (h : ∀ c ∈ cs, c.Plain) :
    Climbs (ofComponents cs).text ↔ cs.head? = some .up := by
  have htext := toList_text_plain h
  have hread : stretch (ofComponents cs).text.toList = cs := by rw [htext, stretch_intercalate h]
  have hup : stretch ['.', '.'] = [.up] := by
    rw [stretch_segment (by decide)]
    rfl
  constructor
  · rintro (hslash | hdots)
    · obtain ⟨r, hr⟩ := hslash
      have hsplit : stretch (['.', '.'] ++ '/' :: r) = .up :: stretch r := by
        rw [stretch_append_slash, hup]
        rfl
      rw [← hread, ← hr]
      exact congrArg List.head? hsplit
    · rw [← hread, hdots]
      exact congrArg List.head? hup
  · intro hhead
    obtain ⟨ds, rfl⟩ := List.head?_eq_some_iff.1 hhead
    cases ds with
    | nil => exact Or.inr rfl
    | cons d ds =>
      refine Or.inl ⟨['/'].intercalate ((d :: ds).map fun c => c.text.toList), ?_⟩
      rw [htext]
      rfl

/-- **The specifier of a target** is its relative path, with a dot in front of it unless the path climbs. -/
theorem dotRelativeTo_eq {d t : Path} (hd : d.isAbsolute = true) (ht : t.isAbsolute = true)
    (hslash : '\\' ∉ t.text.toList) :
    d.dotRelativeTo t = if (d.relativeTo t).components.head? = some .up then (d.relativeTo t).text
      else "./" ++ (d.relativeTo t).text := by
  obtain ⟨common, above, below, h⟩ := exists_fork hd ht
  have hp := h.plain_upAndDown
  have hclimbs : Climbs (d.relativeTo t).text ↔ (d.relativeTo t).components.head? = some .up := by
    rw [h.relativeTo_eq hd ht, components_ofComponents (.of_plain hp)]
    exact climbs_iff hp
  rw [dotRelativeTo, toSlash_relativeTo hslash]
  exact if_congr ((or_congr_left List.isPrefixOf_iff_prefix).trans hclimbs) rfl rfl

theorem dotted_dotRelativeTo (d t : Path) : Dotted (d.dotRelativeTo t) := by
  unfold dotRelativeTo
  dsimp only
  split_ifs with h
  · exact Or.inr (h.imp_left List.isPrefixOf_iff_prefix.1)
  · exact Or.inl ⟨(d.relativeTo t).toSlash.toList, by simp⟩

/-- a dot in front of a relative path changes nothing -/
theorem stack_join_dot (d : Path) {p : Path} (hp : p.isAbsolute = false) :
    (d.join ⟨"./" ++ p.text⟩).stack = (d.join p).stack := by
  have habs : isAbsolute ⟨"./" ++ p.text⟩ = false := by simp [isAbsolute]
  have hdot : stretch ['.'] = [] := by
    rw [stretch_segment (by decide)]
    rfl
  have hread : stretch ("./" ++ p.text).toList = stretch p.text.toList := by
    calc stretch ("./" ++ p.text).toList
        = stretch (['.'] ++ '/' :: p.text.toList) := by rw [String.toList_append]; rfl
      _ = stretch p.text.toList := by rw [stretch_append_slash, hdot, List.nil_append]
  rw [stack_join d habs, stack_join d hp, hread]

/-- **Specifiers lead back.** Read from the directory, a specifier is its target. -/
theorem stack_join_dotRelativeTo {d t : Path} (hd : d.isAbsolute = true) (ht : t.isAbsolute = true)
    (hslash : '\\' ∉ t.text.toList) :
    (d.join ⟨d.dotRelativeTo t⟩).stack = t.stack := by
  rw [dotRelativeTo_eq hd ht hslash]
  split_ifs
  · exact stack_join_relativeTo hd ht
  · rw [stack_join_dot d (isAbsolute_relativeTo hd ht), stack_join_relativeTo hd ht]

/-- **Relative paths lead back**, for any two absolute paths, normal or not. Joined to the directory and normalized, the
relative path is the normal target. It is no copy of the target: up for each name the directory has behind all that both
have in common, then down the names of the target. Without a backslash in the target, its specifier starts with a dot
and a slash or with two dots, and leads back as well. -/
theorem relativeTo_leads_back {d t : Path} (hd : d.isAbsolute = true) (ht : t.isAbsolute = true) :
    (d.join (d.relativeTo t)).normalize = t.normalize ∧
    (∃ common above below, Fork d t common above below ∧ (d.relativeTo t).components = upAndDown above below) ∧
    Dotted (d.dotRelativeTo t) ∧ ('\\' ∉ t.text.toList → (d.join ⟨d.dotRelativeTo t⟩).normalize = t.normalize) := by
  refine ⟨normalize_eq_of_stack_eq (stack_join_relativeTo hd ht), ?_, dotted_dotRelativeTo d t,
    fun hslash => normalize_eq_of_stack_eq (stack_join_dotRelativeTo hd ht hslash)⟩
  obtain ⟨common, above, below, h⟩ := exists_fork hd ht
  refine ⟨common, above, below, h, ?_⟩
  rw [h.relativeTo_eq hd ht, components_ofComponents (.of_plain h.plain_upAndDown)]

/-- a directory and a target with detours, and a name that starts with two dots where they part -/
theorem relativeTo_leads_back_dottedName :
    (isAbsolute ⟨"/p/src/./x"⟩ = true ∧ isAbsolute ⟨"/../p/src//..a/b.ts"⟩ = true ∧
      '\\' ∉ ("/../p/src//..a/b.ts" : String).toList) ∧
    (relativeTo ⟨"/p/src/./x"⟩ ⟨"/../p/src//..a/b.ts"⟩).text = "../..a/b.ts" ∧
    dotRelativeTo ⟨"/p/src"⟩ ⟨"/../p/src//..a/b.ts"⟩ = "./..a/b.ts" ∧
    (join ⟨"/p/src/./x"⟩ (relativeTo ⟨"/p/src/./x"⟩ ⟨"/../p/src//..a/b.ts"⟩)).normalize =
      normalize ⟨"/../p/src//..a/b.ts"⟩ ∧
    (join ⟨"/p/src"⟩ ⟨dotRelativeTo ⟨"/p/src"⟩ ⟨"/../p/src//..a/b.ts"⟩⟩).normalize =
      normalize ⟨"/../p/src//..a/b.ts"⟩ := by
  have hx : isAbsolute ⟨"/p/src/./x"⟩ = true := by decide +kernel
  have hsrc : isAbsolute ⟨"/p/src"⟩ = true := by decide +kernel
  have ht : isAbsolute ⟨"/../p/src//..a/b.ts"⟩ = true := by decide +kernel
  have hslash : '\\' ∉ ("/../p/src//..a/b.ts" : String).toList := by decide +kernel
  exact ⟨⟨hx, ht, hslash⟩, by decide +kernel, by decide +kernel, (relativeTo_leads_back hx ht).1,
    (relativeTo_leads_back hsrc ht).2.2.2 hslash⟩

/-- a place read from itself, and the root read from below -/
example : dotRelativeTo ⟨"/"⟩ ⟨"/"⟩ = "./" ∧ dotRelativeTo ⟨"/a/b"⟩ ⟨"/"⟩ = "../.." := by decide +kernel

end ClosurePipeline.Path
