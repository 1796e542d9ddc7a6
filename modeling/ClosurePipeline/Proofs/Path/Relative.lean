/-
Directories of absolute paths, and relative paths that lead back.

Results:
- `exists_parent?`: the directory of an absolute path has all its segments but the last;
- `Fork`, `exists_fork`: all that two absolute places have in common, and the names behind it on each side;
- `Fork.relativeTo_eq`: the path of a target read from a directory climbs the ones and goes down the others;
- `stack_join_relativeTo`: the path of a target read from a directory, joined to that directory, is the target;
- `toSlash_relativeTo`: without backslashes in the target, that path is written with slashes as it is;
- `exists_stretch_append`: a text with an ending behind it names a file of that ending in the same directory.
-/
import Mathlib.Data.List.TakeWhile
import ClosurePipeline.Proofs.Path.Normal

namespace ClosurePipeline.Path

/-! ## Stacks of absolute paths -/

/-- names on top of the root -/
def Rooted (st : List Component) : Prop :=
  ∃ ns : List String, st = ns.map .name ++ [.root] ∧ ∀ n ∈ ns, (Component.name n).Plain

theorem rooted_resolveStep {st : List Component} (h : Rooted st) {c : Component} (hc : c.Plain) :
    Rooted (resolveStep st c) := by
  obtain ⟨ns, rfl, hns⟩ := h
  cases c with
  | up =>
    cases ns with
    | nil => exact ⟨[], rfl, by simp⟩
    | cons n ns => exact ⟨ns, rfl, fun m hm => hns m (List.mem_cons_of_mem _ hm)⟩
  | name s => exact ⟨s :: ns, rfl, List.forall_mem_cons.2 ⟨hc, hns⟩⟩
  | _ => exact hc.elim

theorem rooted_foldl {st : List Component} (h : Rooted st) {cs : List Component} (hcs : ∀ c ∈ cs, c.Plain) :
    Rooted (cs.foldl resolveStep st) := by
  induction cs generalizing st with
  | nil => exact h
  | cons c cs ih =>
    exact ih (rooted_resolveStep h (hcs c List.mem_cons_self)) fun d hd => hcs d (List.mem_cons_of_mem _ hd)

theorem stack_of_isAbsolute {p : Path} (h : p.isAbsolute = true) :
    p.stack = (stretch p.text.toList).foldl resolveStep [.root] := by
  rw [stack_eq, if_pos h]

theorem rooted_stack {p : Path} (h : p.isAbsolute = true) : Rooted p.stack := by
  rw [stack_of_isAbsolute h]
  exact rooted_foldl ⟨[], rfl, by simp⟩ fun c hc => plain_of_mem_stretch hc

theorem plain_of_mem_stack {p : Path} {n : String} (h : Component.name n ∈ p.stack) : (Component.name n).Plain := by
  rcases (stacked_stack p).root_or_plain with ⟨ns, hns, hplain⟩ | hplain
  · rw [hns] at h
    rcases List.mem_append.1 h with h | h
    · exact hplain _ h
    · cases List.mem_singleton.1 h
  · exact hplain _ h

/-! ## The directory of a path -/

theorem filterMap_ofSegment_eq_nil {l : List (List Char)} (h : ∀ s ∈ l, (Component.ofSegment s).isNone = true) :
    l.filterMap Component.ofSegment = [] := by
  rw [List.filterMap_eq_nil_iff]
  intro s hs
  simpa using h s hs

/-- the segments that stand for nothing can be cut off at the end -/
theorem filterMap_segmentsBack (segs : List (List Char)) :
    (segmentsBack segs).reverse.filterMap Component.ofSegment = segs.filterMap Component.ofSegment := by
  have hsplit := List.takeWhile_append_dropWhile (p := fun s => (Component.ofSegment s).isNone) (l := segs.reverse)
  have hjunk : (segs.reverse.takeWhile fun s => (Component.ofSegment s).isNone).filterMap Component.ofSegment = [] :=
    filterMap_ofSegment_eq_nil fun s hs => List.mem_takeWhile_imp (p := fun s => (Component.ofSegment s).isNone) hs
  conv_rhs => rw [← List.reverse_reverse segs, ← hsplit, List.reverse_append, List.filterMap_append]
  rw [List.filterMap_reverse (l := List.takeWhile _ _), hjunk]
  simp [segmentsBack]

theorem stretch_intercalate_segments {segs : List (List Char)} (h : ∀ s ∈ segs, '/' ∉ s) :
    stretch (['/'].intercalate segs) = segs.filterMap Component.ofSegment := by
  cases segs with
  | nil => simp
  | cons s ss => rw [stretch, List.splitOn_intercalate _ h (by simp)]

theorem mem_segmentsBack {segs : List (List Char)} {s : List Char} (h : s ∈ segmentsBack segs) : s ∈ segs :=
  List.mem_reverse.1 ((List.dropWhile_sublist _).subset h)

/-- the last component of a path is that of the last segment that stands for something -/
theorem segmentsBack_of_stretch {segs : List (List Char)} {cs : List Component} {c : Component}
    (h : segs.filterMap Component.ofSegment = cs ++ [c]) :
    ∃ s rest, segmentsBack segs = s :: rest ∧ Component.ofSegment s = some c ∧
      rest.reverse.filterMap Component.ofSegment = cs := by
  have hback := filterMap_segmentsBack segs
  rw [h] at hback
  cases hs : segmentsBack segs with
  | nil => simp [hs] at hback
  | cons s rest =>
    have hs' : (segs.reverse.dropWhile fun s => (Component.ofSegment s).isNone) = s :: rest := hs
    have hsome : (Component.ofSegment s).isSome = true := by
      have := List.head_dropWhile_not (l := segs.reverse) (fun s => (Component.ofSegment s).isNone) (by simp [hs'])
      simpa only [hs', List.head_cons, Option.isNone_eq_false_iff] using this
    obtain ⟨d, hd⟩ := Option.isSome_iff_exists.1 hsome
    rw [hs, List.reverse_cons, List.filterMap_append, List.filterMap_cons_some hd, List.filterMap_nil] at hback
    obtain ⟨h1, h2⟩ := List.append_inj' hback rfl
    exact ⟨s, rest, rfl, by simpa [hd] using h2, h1⟩

theorem lead_of_isAbsolute {p : Path} (h : p.isAbsolute = true) : p.lead = ['/'] := by
  rcases lead_cases p with ⟨r, -, hl⟩ | ⟨e, -⟩ | ⟨r, e, -⟩ | ⟨-, hn⟩
  · exact hl
  · simp [isAbsolute, e] at h
  · simp [isAbsolute, e] at h
  · simp [hn] at h

theorem filterMap_segments (p : Path) : p.segments.filterMap Component.ofSegment = stretch p.text.toList :=
  List.append_cancel_left (components_eq p)

/-- **The directory of an absolute path** has all segments but the last. -/
theorem exists_parent? {p : Path} (h : p.isAbsolute = true) {cs : List Component} {c : Component}
    (hs : stretch p.text.toList = cs ++ [c]) :
    ∃ d, p.parent? = some d ∧ d.isAbsolute = true ∧ stretch d.text.toList = cs := by
  obtain ⟨s, rest, hb, -, hrest⟩ := segmentsBack_of_stretch ((filterMap_segments p).trans hs)
  refine ⟨_, by rw [parent?, hb], ?_, ?_⟩
  · simp [isAbsolute, lead_of_isAbsolute h]
  · have hno : ∀ t ∈ (segmentsBack rest.reverse).reverse, '/' ∉ t := by
      intro t ht
      have h1 : t ∈ segmentsBack p.segments :=
        hb ▸ List.mem_cons_of_mem _ (List.mem_reverse.1 (mem_segmentsBack (List.mem_reverse.1 ht)))
      exact slash_notMem_of_mem_splitOn (mem_segmentsBack h1)
    simp only [lead_of_isAbsolute h, String.toList_ofList, List.singleton_append]
    rw [stretch_slash, stretch_intercalate_segments hno, filterMap_segmentsBack, hrest]

theorem fileName?_of_stretch {p : Path} {cs : List Component} {n : String}
    (hs : stretch p.text.toList = cs ++ [.name n]) :
    p.fileName? = some n := by
  obtain ⟨s, rest, hb, hseg, -⟩ := segmentsBack_of_stretch ((filterMap_segments p).trans hs)
  have hdots : s ≠ ['.', '.'] := by
    rintro rfl
    simp [Component.ofSegment] at hseg
  have hn : String.ofList s = n := by
    unfold Component.ofSegment at hseg
    split_ifs at hseg
    simpa using hseg
  simp [fileName?, hb, hdots, hn]

/-! ## Endings -/

/-- **A text with an ending behind it** names a file of that ending, in the directory the text names. -/
theorem exists_stretch_append (cs : List Char) :
    ∃ above stem, '/' ∉ stem ∧ ∀ ending : List Char, '/' ∉ ending → 2 < ending.length →
      stretch (cs ++ ending) = above ++ [.name (String.ofList (stem ++ ending))] := by
  have hname : ∀ stem ending : List Char, '/' ∉ stem → '/' ∉ ending → 2 < ending.length →
      stretch (stem ++ ending) = [.name (String.ofList (stem ++ ending))] := by
    intro stem ending h1 h2 h3
    have hlong : 2 < (stem ++ ending).length := by simp; omega
    rw [stretch_segment (by simp [h1, h2])]
    have e1 : ¬ (stem ++ ending = [] ∨ stem ++ ending = ['.']) := by
      rintro (e | e) <;> simp [e] at hlong
    have e2 : stem ++ ending ≠ ['.', '.'] := by
      intro e; simp [e] at hlong
    rw [Component.ofSegment, if_neg e1, if_neg e2]
    rfl
  by_cases hslash : '/' ∈ cs
  · obtain ⟨b, a, hab, hb⟩ := List.eq_append_cons_of_mem (List.mem_reverse.2 hslash)
    have hcs : cs = a.reverse ++ '/' :: b.reverse := by
      rw [← List.reverse_reverse cs, hab]
      simp
    have hb' : '/' ∉ b.reverse := by simpa using hb
    refine ⟨stretch a.reverse, b.reverse, hb', fun ending h2 h3 => ?_⟩
    rw [hcs, List.append_assoc, List.cons_append, stretch_append_slash, hname _ _ hb' h2 h3]
  · exact ⟨[], cs, hslash, fun ending h2 h3 => hname cs ending hslash h2 h3⟩

/-! ## Relative paths -/

/-- what is dropped is a common beginning, and no longer one is -/
theorem dropCommon_spec (xs ys : List Component) :
    ∃ common, xs = common ++ (dropCommon xs ys).1 ∧ ys = common ++ (dropCommon xs ys).2 ∧
      ∀ c, (dropCommon xs ys).1.head? = some c → (dropCommon xs ys).2.head? ≠ some c := by
  induction xs generalizing ys with
  | nil => exact ⟨[], by simp [dropCommon], by simp [dropCommon], by simp [dropCommon]⟩
  | cons a as ih =>
    cases ys with
    | nil => exact ⟨[], by simp [dropCommon], by simp [dropCommon], by simp [dropCommon]⟩
    | cons b bs =>
      by_cases hab : a = b
      · obtain ⟨common, h1, h2, h3⟩ := ih bs
        subst hab
        rw [dropCommon, if_pos rfl]
        exact ⟨a :: common, congrArg (a :: ·) h1, congrArg (a :: ·) h2, h3⟩
      · exact ⟨[], by simp [dropCommon, hab], by simp [dropCommon, hab], by simp [dropCommon, hab, eq_comm]⟩

/-- a common beginning is dropped whole if what stands behind it differs at once -/
theorem dropCommon_append {xs ys : List Component} (h : ∀ c, xs.head? = some c → ys.head? ≠ some c)
    (common : List Component) :
    dropCommon (common ++ xs) (common ++ ys) = (xs, ys) := by
  induction common with
  | nil =>
    cases xs with
    | nil => simp [dropCommon]
    | cons a as =>
      cases ys with
      | nil => simp [dropCommon]
      | cons b bs =>
        have hab : a ≠ b := fun e => h a rfl (by rw [e]; rfl)
        simp [dropCommon, hab]
  | cons c common ih => rw [List.cons_append, List.cons_append, dropCommon, if_pos rfl, ih]

/-- how two places lie to each other: all that they have in common, and the names behind it on each side -/
structure Fork (d t : Path) (common : List Component) (above below : List String) : Prop where
  dir : d.normalize.components = common ++ above.map .name
  target : t.normalize.components = common ++ below.map .name
  /-- they part at once -/
  apart : ∀ n, above.head? = some n → below.head? ≠ some n

/-- up from some names and down to others -/
def upAndDown (above below : List String) : List Component := (above.map fun _ => .up) ++ below.map .name

/-- two absolute places have the root in common at least -/
theorem exists_fork {d t : Path} (hd : d.isAbsolute = true) (ht : t.isAbsolute = true) :
    ∃ common above below, Fork d t common above below := by
  obtain ⟨ns, hns, -⟩ := rooted_stack hd
  obtain ⟨ms, hms, -⟩ := rooted_stack ht
  obtain ⟨common, h1, h2, h3⟩ := dropCommon_spec (ns.reverse.map .name) (ms.reverse.map Component.name)
  obtain ⟨-, above, -, -, habove⟩ := List.map_eq_append_iff.1 h1
  obtain ⟨-, below, -, -, hbelow⟩ := List.map_eq_append_iff.1 h2
  rw [← habove, ← hbelow] at h3
  refine ⟨.root :: common, above, below, ?_, ?_, fun n hn hm => h3 (.name n) (by simp [hn]) (by simp [hm])⟩
  · rw [components_normalize, hns, habove, List.cons_append, ← h1]
    simp
  · rw [components_normalize, hms, hbelow, List.cons_append, ← h2]
    simp

section Fork

variable {d t : Path} (hd : d.isAbsolute = true) (ht : t.isAbsolute = true) {common : List Component}
  {above below : List String} (h : Fork d t common above below)

include h

theorem Fork.plain_upAndDown : ∀ c ∈ upAndDown above below, c.Plain := by
  intro c hc
  rcases List.mem_append.1 hc with hc | hc
  · obtain ⟨n, -, rfl⟩ := List.mem_map.1 hc
    trivial
  · obtain ⟨n, -, rfl⟩ := List.mem_map.1 hc
    have hmem : Component.name n ∈ t.stack.reverse := by
      rw [← components_normalize, h.target]
      exact List.mem_append_right _ hc
    exact plain_of_mem_stack (List.mem_reverse.1 hmem)

include hd ht

/-- **A relative path** climbs as often as there are names on the one side, and goes down to the names on the other. -/
theorem Fork.relativeTo_eq : d.relativeTo t = ofComponents (upAndDown above below) := by
  have hapart : ∀ c, (above.map Component.name).head? = some c → (below.map Component.name).head? ≠ some c := by
    intro c hc hc'
    rw [List.head?_map] at hc hc'
    obtain ⟨n, hn, rfl⟩ := Option.map_eq_some_iff.1 hc
    obtain ⟨m, hm, e⟩ := Option.map_eq_some_iff.1 hc'
    exact h.apart n hn (Component.name.inj e ▸ hm)
  have hdrop := dropCommon_append hapart common
  rw [← h.dir, ← h.target, components_normalize, components_normalize] at hdrop
  simp only [relativeTo, resolveDots_components, hd, ht, if_true, hdrop, List.map_map]
  rfl

end Fork

theorem isAbsolute_relativeTo {d t : Path} (hd : d.isAbsolute = true) (ht : t.isAbsolute = true) :
    (d.relativeTo t).isAbsolute = false := by
  obtain ⟨common, above, below, h⟩ := exists_fork hd ht
  rw [h.relativeTo_eq hd ht, isAbsolute_ofComponents h.plain_upAndDown]

/-- two dots for each name take the names off again -/
theorem foldl_ups (ns : List String) (st : List Component) :
    (ns.map fun _ => Component.up).foldl resolveStep (ns.map .name ++ st) = st := by
  induction ns with
  | nil => rfl
  | cons n ns ih => exact ih

theorem foldl_names (ns : List String) (st : List Component) :
    (ns.map Component.name).foldl resolveStep st = (ns.map Component.name).reverse ++ st := by
  induction ns generalizing st with
  | nil => rfl
  | cons n ns ih =>
    rw [List.map_cons, List.foldl_cons, ih, List.reverse_cons, List.append_assoc]
    rfl

/-- **Relative paths lead back.** Joined to the directory it is read from, a relative path is its target. -/
theorem stack_join_relativeTo {d t : Path} (hd : d.isAbsolute = true) (ht : t.isAbsolute = true) :
    (d.join (d.relativeTo t)).stack = t.stack := by
  obtain ⟨common, above, below, h⟩ := exists_fork hd ht
  have hp := h.plain_upAndDown
  have hds : d.stack = above.reverse.map .name ++ common.reverse := by
    rw [← List.reverse_reverse d.stack, ← components_normalize, h.dir, List.reverse_append, List.map_reverse]
  have hts : t.stack = (below.map .name).reverse ++ common.reverse := by
    rw [← List.reverse_reverse t.stack, ← components_normalize, h.target, List.reverse_append]
  have hups : (above.map fun _ => Component.up) = above.reverse.map fun _ => Component.up := by
    simp [List.map_const']
  calc (d.join (d.relativeTo t)).stack
      = (stretch (d.relativeTo t).text.toList).foldl resolveStep d.stack := stack_join d (isAbsolute_relativeTo hd ht)
    _ = (upAndDown above below).foldl resolveStep d.stack := by
      rw [h.relativeTo_eq hd ht, toList_text_plain hp, stretch_intercalate hp]
    _ = (below.map .name).foldl resolveStep common.reverse := by rw [upAndDown, List.foldl_append, hds, hups, foldl_ups]
    _ = t.stack := by rw [foldl_names, hts]

/-! ## Characters of a relative path -/

section Intercalate

variable {sep x : Char} {ls : List (List Char)}

theorem mem_intercalate_of_mem {l : List Char} (hl : l ∈ ls) (hx : x ∈ l) : x ∈ [sep].intercalate ls := by
  induction ls with
  | nil => simp at hl
  | cons m ms ih =>
    cases ms with
    | nil => simp only [List.mem_singleton] at hl; subst hl; simpa using hx
    | cons m' ms =>
      rw [List.intercalate_cons_cons]
      rcases List.mem_cons.1 hl with rfl | hl
      · simp [hx]
      · exact List.mem_append_right _ (ih hl)

/-- a character of a joined text is a separator or a character of a part -/
theorem mem_intercalate (h : x ∈ [sep].intercalate ls) : x = sep ∨ ∃ l ∈ ls, x ∈ l := by
  induction ls with
  | nil => simp at h
  | cons m ms ih =>
    cases ms with
    | nil => exact Or.inr ⟨m, by simp, by simpa using h⟩
    | cons m' ms =>
      simp only [List.intercalate_cons_cons, List.mem_append, List.mem_singleton] at h
      rcases h with (h | h) | h
      · exact Or.inr ⟨m, List.mem_cons_self, h⟩
      · exact Or.inl h
      · rcases ih h with h | ⟨l, hl, hx⟩
        · exact Or.inl h
        · exact Or.inr ⟨l, List.mem_cons_of_mem _ hl, hx⟩

end Intercalate

theorem mem_of_mem_text_stretch {cs : List Char} {c : Component} (h : c ∈ stretch cs) {x : Char}
    (hx : x ∈ c.text.toList) :
    x ∈ cs := by
  obtain ⟨seg, hseg, hc⟩ := List.mem_filterMap.1 h
  have hmem : ∀ y ∈ seg, y ∈ cs := by
    intro y hy
    have hflat : y ∈ ['/'].intercalate (cs.splitOn '/') := mem_intercalate_of_mem hseg hy
    rwa [List.intercalate_splitOn] at hflat
  have htext : c.text.toList = seg := by
    unfold Component.ofSegment at hc
    split_ifs at hc with h1 h2
    · cases hc; exact h2.symm
    · cases hc; simp [Component.text]
  exact hmem x (htext ▸ hx)

theorem mem_foldl_resolveStep {cs st : List Component} {c : Component} (h : c ∈ cs.foldl resolveStep st) :
    c ∈ st ∨ c ∈ cs := by
  induction cs generalizing st with
  | nil => exact Or.inl h
  | cons d cs ih =>
    rcases ih h with h | h
    · have hstep : c ∈ st ∨ c = d := by
        cases d with
        | up =>
          cases st with
          | nil => simpa [resolveStep] using h
          | cons e st =>
            cases e with
            | name s => exact Or.inl (List.mem_cons_of_mem _ h)
            | root => exact Or.inl h
            | _ => exact (List.mem_cons.1 h).symm
        | here => exact Or.inl h
        | _ => exact (List.mem_cons.1 h).symm
      rcases hstep with h | rfl
      · exact Or.inl h
      · exact Or.inr List.mem_cons_self
    · exact Or.inr (List.mem_cons_of_mem _ h)

/-- a character of a component is a slash, a dot or a character of the path -/
theorem mem_of_mem_text_component {p : Path} {c : Component} (h : c ∈ p.components) {x : Char}
    (hx : x ∈ c.text.toList) :
    x = '/' ∨ x = '.' ∨ x ∈ p.text.toList := by
  rw [components_eq] at h
  rcases List.mem_append.1 h with h | h
  · unfold leadComponents at h
    split at h
    · cases h
    · split_ifs at h
      · rw [List.mem_singleton.1 h] at hx
        exact Or.inl (by simpa [Component.text] using hx)
      · rw [List.mem_singleton.1 h] at hx
        exact Or.inr (Or.inl (by simpa [Component.text] using hx))
  · exact Or.inr (Or.inr (mem_of_mem_text_stretch h hx))

theorem mem_text_ofComponents {cs : List Component} {x : Char} (hx : x ∈ (ofComponents cs).text.toList) :
    x = '/' ∨ ∃ c ∈ cs, x ∈ c.text.toList := by
  have hnames : ∀ {cs : List Component}, x ∈ ("/".intercalate (cs.map Component.text)).toList → x = '/' ∨
      ∃ c ∈ cs, x ∈ c.text.toList := by
    intro cs hx
    rw [String.toList_intercalate, List.map_map] at hx
    refine (mem_intercalate hx).imp_right fun ⟨l, hl, hx⟩ => ?_
    obtain ⟨c, hc, rfl⟩ := List.mem_map.1 hl
    exact ⟨c, hc, hx⟩
  unfold ofComponents at hx
  split at hx
  · rw [String.toList_append, List.mem_append] at hx
    rcases hx with hx | hx
    · exact Or.inl (by simpa using hx)
    · exact (hnames hx).imp_right fun ⟨c, hc, hx⟩ => ⟨c, List.mem_cons_of_mem _ hc, hx⟩
  · exact hnames hx

/-- a character of a relative path is a slash, a dot or a character of the target -/
theorem mem_text_relativeTo {d t : Path} {x : Char} (hx : x ∈ (d.relativeTo t).text.toList) :
    x = '/' ∨ x = '.' ∨ x ∈ t.text.toList := by
  have hgoal : ∀ c ∈ resolveDots t.components, x ∈ c.text.toList → x = '/' ∨ x = '.' ∨ x ∈ t.text.toList := by
    intro c hc hx
    have hmem := (mem_foldl_resolveStep (List.mem_reverse.1 hc)).resolve_left List.not_mem_nil
    exact mem_of_mem_text_component hmem hx
  unfold relativeTo at hx
  dsimp only at hx
  split_ifs at hx
  · rcases mem_text_ofComponents hx with h | ⟨c, hc, hx⟩
    · exact Or.inl h
    rcases List.mem_append.1 hc with hc | hc
    · obtain ⟨n, -, rfl⟩ := List.mem_map.1 hc
      exact Or.inr (Or.inl (by simpa [Component.text] using hx))
    · obtain ⟨common, -, hbelow, -⟩ := dropCommon_spec (resolveDots d.components) (resolveDots t.components)
      exact hgoal c (hbelow ▸ List.mem_append_right _ hc) hx
  · rcases mem_text_ofComponents hx with h | ⟨c, hc, hx⟩
    · exact Or.inl h
    · exact hgoal c hc hx

theorem toSlash_eq_text {p : Path} (h : '\\' ∉ p.text.toList) : p.toSlash = p.text := by
  apply String.toList_inj.1
  rw [toSlash, String.toList_map]
  refine (List.map_congr_left fun c hc => ?_).trans (List.map_id _)
  have : c ≠ '\\' := fun e => h (e ▸ hc)
  simp [this]

/-- a relative path is written with slashes as it is, unless the target has a backslash in it -/
theorem toSlash_relativeTo {d t : Path} (h : '\\' ∉ t.text.toList) :
    (d.relativeTo t).toSlash = (d.relativeTo t).text := by
  refine toSlash_eq_text fun hx => ?_
  rcases mem_text_relativeTo hx with e | e | e
  · simp at e
  · simp at e
  · exact h e

end ClosurePipeline.Path
