/-
Normal paths and their components. A path's text is read segment by segment; `stretch` is that reading without the lead,
and it turns a slash into `++`. Resolving dots is a run of `resolveStep` over a stack, and `Stacked` says which stacks
such a run can leave.

Results:
- `components_ofComponents`: the components of a written component list are that list;
- `components_normalize`, `normalize_normalize`: the normal path has the resolved components, and normalizing again
  changes nothing;
- `eq_of_same_of_normal`: normal paths that are spellings of one place are equal;
- `stack_join`: resolving a joined path goes on where resolving the first part stopped;
- `normalize_join_name`: a name behind a normal path makes a normal path.
-/
import Mathlib.Tactic
import ClosurePipeline.Path.Normal

namespace ClosurePipeline

/-! ## Components that can stand behind a lead -/

namespace Component

/-- a component read off a segment: two dots, or a name without slashes -/
def Plain : Component → Prop
  | up => True
  | name s => '/' ∉ s.toList ∧ ofSegment s.toList = some (name s)
  | _ => False

theorem plain_of_ofSegment {cs : List Char} {c : Component} (hs : '/' ∉ cs) (h : ofSegment cs = some c) : c.Plain := by
  unfold ofSegment at h
  split_ifs at h with h1 h2
  · cases h; trivial
  · cases h
    refine ⟨by simpa using hs, ?_⟩
    simp [ofSegment, h1, h2]

theorem Plain.slash_notMem {c : Component} (h : c.Plain) : '/' ∉ c.text.toList := by
  cases c with
  | up => decide
  | name s => exact h.1
  | _ => exact h.elim

theorem Plain.ofSegment_text {c : Component} (h : c.Plain) : ofSegment c.text.toList = some c := by
  cases c with
  | up => decide
  | name s => exact h.2
  | _ => exact h.elim

theorem Plain.text_ne_nil {c : Component} (h : c.Plain) : c.text.toList ≠ [] := by
  intro e
  have := h.ofSegment_text
  rw [e] at this
  simp [ofSegment] at this

theorem Plain.text_ne_dot {c : Component} (h : c.Plain) : c.text.toList ≠ ['.'] := by
  intro e
  have := h.ofSegment_text
  rw [e] at this
  simp [ofSegment] at this

theorem plain_name_iff {s : String} : (name s).Plain ↔ '/' ∉ s.toList ∧ s ≠ "" ∧ s ≠ "." ∧ s ≠ ".." := by
  have hl : ∀ t : String, s.toList = t.toList ↔ s = t := fun t => String.toList_inj
  have h0 := hl ""
  have h1 := hl "."
  have h2 := hl ".."
  simp only [String.toList_empty, String.reduceToList] at h0 h1 h2
  simp only [Plain, ofSegment, String.ofList_toList, h0, h1, h2]
  by_cases e0 : s = "" <;> by_cases e1 : s = "." <;> by_cases e2 : s = ".." <;> simp [e0, e1, e2]

end Component

namespace Path

theorem eq_of_toList_text {p q : Path} (h : p.text.toList = q.text.toList) : p = q := by
  cases p
  cases q
  exact congrArg Path.mk (String.toList_inj.1 h)

/-! ## Reading a text segment by segment -/

/-- the components of a text without its lead -/
def stretch (cs : List Char) : List Component := (cs.splitOn '/').filterMap Component.ofSegment

@[simp] theorem stretch_nil : stretch [] = [] := by
  simp [stretch, Component.ofSegment]

theorem stretch_append_slash (a b : List Char) : stretch (a ++ '/' :: b) = stretch a ++ stretch b := by
  simp [stretch, List.splitOn_append_cons_self]

theorem stretch_slash (b : List Char) : stretch ('/' :: b) = stretch b := by
  simpa using stretch_append_slash [] b

theorem stretch_segment {cs : List Char} (h : '/' ∉ cs) : stretch cs = (Component.ofSegment cs).toList := by
  rw [stretch, List.splitOn_eq_singleton h]
  cases hc : Component.ofSegment cs <;> simp [hc]

theorem slash_notMem_of_mem_splitOn {cs seg : List Char} (h : seg ∈ cs.splitOn '/') : '/' ∉ seg := by
  induction cs generalizing seg with
  | nil => simp at h; subst h; simp
  | cons d ds ih =>
    obtain ⟨s, ss, hs⟩ := List.exists_cons_of_ne_nil (List.splitOn_ne_nil '/' ds)
    rw [List.splitOn_cons_eq_if_modifyHead] at h
    split_ifs at h with hd
    · rcases List.mem_cons.1 h with rfl | hm
      · simp
      · exact ih hm
    · rw [hs, List.modifyHead_cons] at h
      rcases List.mem_cons.1 h with rfl | hm
      · have hsep : d ≠ '/' := by simpa using hd
        have hin : '/' ∉ s := ih (hs ▸ List.mem_cons_self)
        simp [hin, hsep.symm]
      · exact ih (hs ▸ List.mem_cons_of_mem _ hm)

theorem plain_of_mem_stretch {cs : List Char} {c : Component} (h : c ∈ stretch cs) : c.Plain := by
  obtain ⟨seg, hseg, hc⟩ := List.mem_filterMap.1 h
  exact Component.plain_of_ofSegment (slash_notMem_of_mem_splitOn hseg) hc

theorem stretch_intercalate {cs : List Component} (h : ∀ c ∈ cs, c.Plain) :
    stretch (['/'].intercalate (cs.map fun c => c.text.toList)) = cs := by
  cases cs with
  | nil => simp
  | cons c cs =>
    have hno : ∀ l ∈ (c :: cs).map (fun c => c.text.toList), '/' ∉ l := by
      intro l hl
      obtain ⟨d, hd, rfl⟩ := List.mem_map.1 hl
      exact (h d hd).slash_notMem
    rw [stretch, List.splitOn_intercalate _ hno (by simp), List.filterMap_map]
    have : ∀ l : List Component, (∀ c ∈ l, c.Plain) →
        l.filterMap (Component.ofSegment ∘ fun c => c.text.toList) = l := by
      intro l hl
      induction l with
      | nil => rfl
      | cons d ds ih =>
        have hd := (hl d List.mem_cons_self).ofSegment_text
        rw [List.filterMap_cons_some (by simpa using hd), ih fun c hc => hl c (List.mem_cons_of_mem _ hc)]
    exact this _ h

/-- a path starts with a slash, is or starts with a dot, or has no lead -/
theorem lead_cases (p : Path) :
    (∃ r, p.text.toList = '/' :: r ∧ p.lead = ['/']) ∨ (p.text.toList = ['.'] ∧ p.lead = ['.']) ∨
      (∃ r, p.text.toList = '.' :: '/' :: r ∧ p.lead = ['.']) ∨ (p.lead = [] ∧ p.isAbsolute = false) := by
  unfold lead isAbsolute
  split
  · rename_i r e; exact Or.inl ⟨r, e, rfl⟩
  · rename_i e; exact Or.inr (Or.inl ⟨e, rfl⟩)
  · rename_i r e; exact Or.inr (Or.inr (Or.inl ⟨r, e, rfl⟩))
  · rename_i hslash _ _
    refine Or.inr (Or.inr (Or.inr ⟨rfl, ?_⟩))
    cases hp : p.text.toList with
    | nil => rfl
    | cons c cs =>
      have : c ≠ '/' := fun e => hslash cs (e ▸ hp)
      simpa using this

/-- the lead of a path stands for a component of its own, and no segment is lost by cutting it off -/
theorem components_eq (p : Path) : p.components = p.leadComponents ++ stretch p.text.toList := by
  unfold components segments
  congr 1
  rcases lead_cases p with ⟨r, e, hl⟩ | ⟨e, hl⟩ | ⟨r, e, hl⟩ | ⟨hl, -⟩
  · rw [hl, e, stretch_slash]
    rfl
  · rw [hl, e, stretch_segment (by simp)]
    simp [Component.ofSegment]
  · have h1 : stretch ('.' :: '/' :: r) = stretch r := by
      have hdot : stretch ['.'] = [] := by rw [stretch_segment (by simp)]; simp [Component.ofSegment]
      have := stretch_append_slash ['.'] r
      rwa [hdot] at this
    rw [hl, e, h1, ← stretch_slash r]
    rfl
  · rw [hl]
    rfl

theorem leadComponents_of_isAbsolute {p : Path} (h : p.isAbsolute = true) : p.leadComponents = [.root] := by
  rcases lead_cases p with ⟨r, -, hl⟩ | ⟨e, -⟩ | ⟨r, e, -⟩ | ⟨-, hn⟩
  · simp [leadComponents, hl]
  · simp [isAbsolute, e] at h
  · simp [isAbsolute, e] at h
  · simp [hn] at h

theorem leadComponents_of_not_isAbsolute {p : Path} (h : p.isAbsolute = false) :
    p.leadComponents = [] ∨ p.leadComponents = [.here] := by
  rcases lead_cases p with ⟨r, e, -⟩ | ⟨-, hl⟩ | ⟨r, -, hl⟩ | ⟨hl, -⟩
  · simp [isAbsolute, e] at h
  · exact Or.inr (by simp [leadComponents, hl])
  · exact Or.inr (by simp [leadComponents, hl])
  · exact Or.inl (by simp [leadComponents, hl])

/-! ## Writing component lists -/

/-- a list that a path can have as its components: plain ones, behind the root or not -/
def Writable : List Component → Prop
  | .root :: cs => ∀ c ∈ cs, c.Plain
  | cs => ∀ c ∈ cs, c.Plain

theorem Writable.of_plain {cs : List Component} (h : ∀ c ∈ cs, c.Plain) : Writable cs := by
  cases cs with
  | nil => simp [Writable]
  | cons c cs =>
    cases c with
    | root => exact (h _ List.mem_cons_self).elim
    | _ => exact h

theorem writable_cases {cs : List Component} (h : Writable cs) :
    (∃ ds, cs = .root :: ds ∧ ∀ c ∈ ds, c.Plain) ∨ ∀ c ∈ cs, c.Plain := by
  cases cs with
  | nil => simp
  | cons c cs =>
    cases c with
    | root => exact Or.inl ⟨cs, rfl, h⟩
    | _ => exact Or.inr h

theorem toList_text_root (cs : List Component) :
    (ofComponents (.root :: cs)).text.toList = '/' :: ['/'].intercalate (cs.map fun c => c.text.toList) := by
  simp [ofComponents, String.toList_intercalate, Function.comp_def]

theorem toList_text_plain {cs : List Component} (h : ∀ c ∈ cs, c.Plain) :
    (ofComponents cs).text.toList = ['/'].intercalate (cs.map fun c => c.text.toList) := by
  unfold ofComponents
  split
  · exact (h _ List.mem_cons_self).elim
  · simp [String.toList_intercalate, Function.comp_def]

/-- plain components written out start with no lead -/
theorem lead_ofComponents {cs : List Component} (h : ∀ c ∈ cs, c.Plain) : (ofComponents cs).lead = [] := by
  have ht := toList_text_plain h
  cases cs with
  | nil =>
    simp only [List.map_nil, List.intercalate_nil] at ht
    simp [lead, ht]
  | cons c cs =>
    have hc := h c List.mem_cons_self
    obtain ⟨d, ds, hd⟩ := List.exists_cons_of_ne_nil hc.text_ne_nil
    have hslash : d ≠ '/' := fun e => hc.slash_notMem (by simp [hd, e])
    have hdot : ds = [] → d ≠ '.' := fun e e' => hc.text_ne_dot (by simp [hd, e, e'])
    have hds : ∀ r, ds ≠ '/' :: r := fun r e => hc.slash_notMem (by simp [hd, e])
    rcases lead_cases (ofComponents (c :: cs)) with ⟨r, e, -⟩ | ⟨e, -⟩ | ⟨r, e, -⟩ | ⟨hl, -⟩
    · rw [ht] at e
      cases cs <;> simp [List.intercalate_cons_cons, hd] at e <;> exact absurd e.1 hslash
    · rw [ht] at e
      cases cs with
      | nil => simp [hd] at e; exact absurd e.1 (hdot e.2)
      | cons _ _ => simp [List.intercalate_cons_cons, hd] at e
    · rw [ht] at e
      cases cs with
      | nil => simp [hd] at e; exact absurd e.2 (hds r)
      | cons _ _ =>
        simp only [List.map_cons, List.intercalate_cons_cons, hd, List.cons_append, List.cons.injEq] at e
        cases hcs : ds with
        | nil => exact absurd e.1 (hdot hcs)
        | cons x xs =>
          rw [hcs] at e
          simp only [List.cons_append, List.cons.injEq] at e
          exact absurd (by rw [hcs, e.2.1]) (hds xs)
    · exact hl

theorem leadComponents_ofComponents {cs : List Component} (h : ∀ c ∈ cs, c.Plain) :
    (ofComponents cs).leadComponents = [] := by
  rw [leadComponents, lead_ofComponents h]

theorem isAbsolute_ofComponents {cs : List Component} (h : ∀ c ∈ cs, c.Plain) :
    (ofComponents cs).isAbsolute = false := by
  by_contra hn
  have hroot := leadComponents_of_isAbsolute (p := ofComponents cs) (by simpa using hn)
  rw [leadComponents_ofComponents h] at hroot
  cases hroot

/-- **Writing and reading components.** The text of a component list stands for that list. -/
theorem components_ofComponents {cs : List Component} (h : Writable cs) : (ofComponents cs).components = cs := by
  rcases writable_cases h with ⟨ds, rfl, hds⟩ | hp
  · have ht := toList_text_root ds
    have habs : (ofComponents (.root :: ds)).isAbsolute = true := by simp [isAbsolute, ht]
    rw [components_eq, leadComponents_of_isAbsolute habs, ht, stretch_slash, stretch_intercalate hds]
    rfl
  · rw [components_eq, leadComponents_ofComponents hp, toList_text_plain hp, stretch_intercalate hp]
    rfl

/-! ## Resolving dots -/

/-- the stacks that resolving leaves, the last component on top: names above two dots, or names above the root -/
def Stacked : List Component → Prop
  | [] => True
  | .root :: st => st = []
  | .here :: _ => False
  | .up :: st => ∀ c ∈ st, c = .up
  | .name s :: st => (Component.name s).Plain ∧ Stacked st

theorem stacked_of_ups {st : List Component} (h : ∀ c ∈ st, c = .up) : Stacked st := by
  cases st with
  | nil => trivial
  | cons c st =>
    have hc := h c List.mem_cons_self
    subst hc
    exact fun c hc => h c (List.mem_cons_of_mem _ hc)

/-- one plain component keeps a stack in order -/
theorem stacked_resolveStep {st : List Component} (h : Stacked st) {c : Component} (hc : c.Plain) :
    Stacked (resolveStep st c) := by
  cases c with
  | up =>
    cases st with
    | nil => simp [resolveStep, Stacked]
    | cons d st =>
      cases d with
      | root => exact h
      | here => exact h.elim
      | name s => exact h.2
      | up =>
        intro e he
        rcases List.mem_cons.1 he with rfl | he
        · rfl
        · exact h e he
  | name s => exact ⟨hc, h⟩
  | _ => exact hc.elim

theorem stacked_foldl {st : List Component} (h : Stacked st) {cs : List Component} (hcs : ∀ c ∈ cs, c.Plain) :
    Stacked (cs.foldl resolveStep st) := by
  induction cs generalizing st with
  | nil => exact h
  | cons c cs ih =>
    exact ih (stacked_resolveStep h (hcs c List.mem_cons_self)) fun d hd => hcs d (List.mem_cons_of_mem _ hd)

theorem resolveStep_up_of_ups {st : List Component} (h : ∀ c ∈ st, c = .up) : resolveStep st .up = .up :: st := by
  cases st with
  | nil => rfl
  | cons c st =>
    have hc := h c List.mem_cons_self
    subst hc
    rfl

/-- a stack in order is rebuilt by its own components -/
theorem foldl_reverse_of_stacked {st : List Component} (h : Stacked st) : st.reverse.foldl resolveStep [] = st := by
  induction st with
  | nil => rfl
  | cons c st ih =>
    rw [List.reverse_cons, List.foldl_append]
    cases c with
    | root => simp only [Stacked] at h; subst h; rfl
    | here => exact h.elim
    | up =>
      rw [ih (stacked_of_ups h)]
      exact resolveStep_up_of_ups h
    | name s => rw [ih h.2]; rfl

theorem Stacked.root_or_plain {st : List Component} (h : Stacked st) :
    (∃ ns, st = ns ++ [.root] ∧ ∀ c ∈ ns, c.Plain) ∨ ∀ c ∈ st, c.Plain := by
  induction st with
  | nil => exact Or.inr (by simp)
  | cons c st ih =>
    cases c with
    | root => simp only [Stacked] at h; subst h; exact Or.inl ⟨[], rfl, by simp⟩
    | here => exact h.elim
    | up =>
      refine Or.inr fun c hc => ?_
      rcases List.mem_cons.1 hc with rfl | hc
      · trivial
      · rw [h c hc]; trivial
    | name s =>
      rcases ih h.2 with ⟨ns, rfl, hns⟩ | hp
      · exact Or.inl ⟨.name s :: ns, rfl, List.forall_mem_cons.2 ⟨h.1, hns⟩⟩
      · exact Or.inr (List.forall_mem_cons.2 ⟨h.1, hp⟩)

theorem Stacked.writable_reverse {st : List Component} (h : Stacked st) : Writable st.reverse := by
  rcases h.root_or_plain with ⟨ns, rfl, hns⟩ | hp
  · rw [List.reverse_append]
    exact fun c hc => hns c (List.mem_reverse.1 hc)
  · exact Writable.of_plain fun c hc => hp c (List.mem_reverse.1 hc)

/-- the stack of a path, before it is written out -/
def stack (p : Path) : List Component := p.components.foldl resolveStep []

theorem resolveDots_components (p : Path) : resolveDots p.components = p.stack.reverse := rfl

theorem stack_eq (p : Path) :
    p.stack = (stretch p.text.toList).foldl resolveStep (if p.isAbsolute then [.root] else []) := by
  rw [stack, components_eq, List.foldl_append]
  cases h : p.isAbsolute with
  | true => rw [leadComponents_of_isAbsolute h]; rfl
  | false => rcases leadComponents_of_not_isAbsolute h with e | e <;> rw [e] <;> rfl

theorem stacked_stack (p : Path) : Stacked p.stack := by
  rw [stack_eq]
  refine stacked_foldl ?_ fun c hc => plain_of_mem_stretch hc
  split <;> simp [Stacked]

/-- the normal path stands for the resolved components -/
theorem components_normalize (p : Path) : p.normalize.components = p.stack.reverse :=
  components_ofComponents p.stacked_stack.writable_reverse

theorem stack_normalize (p : Path) : p.normalize.stack = p.stack := by
  rw [stack, components_normalize, foldl_reverse_of_stacked p.stacked_stack]

theorem normalize_eq (p : Path) : p.normalize = ofComponents p.stack.reverse := rfl

/-- **Normalizing is idempotent.** -/
theorem normalize_normalize (p : Path) : p.normalize.normalize = p.normalize := by
  rw [normalize_eq p.normalize, stack_normalize, normalize_eq]

theorem Same.normalize_eq {p q : Path} (h : p.Same q) : p.normalize = q.normalize := by
  unfold normalize
  rw [h]

/-- two normal spellings of one place are one text -/
theorem eq_of_same_of_normal {p q : Path} (hp : p.normalize = p) (hq : q.normalize = q) (h : p.Same q) : p = q := by
  rw [← hp, ← hq, h.normalize_eq]

theorem normalize_eq_of_stack_eq {p q : Path} (h : p.stack = q.stack) : p.normalize = q.normalize := by
  rw [normalize_eq, normalize_eq, h]

theorem stack_eq_of_normalize_eq {p q : Path} (h : p.normalize = q.normalize) : p.stack = q.stack := by
  rw [← stack_normalize p, h, stack_normalize]

/-! ## Joining -/

theorem isAbsolute_join {p q : Path} (hp : p.isAbsolute = true) : (p.join q).isAbsolute = true := by
  unfold join
  have hne : p.text.toList ≠ [] := by
    intro e; simp [isAbsolute, e] at hp
  obtain ⟨c, cs, hc⟩ := List.exists_cons_of_ne_nil hne
  have hslash : c = '/' := by simpa [isAbsolute, hc] using hp
  split_ifs with hq h
  · exact hq
  · simp [isAbsolute, hc, hslash]
  · simp [isAbsolute, hc, hslash]

theorem isAbsolute_join_of_relative {p q : Path} (hp : p.isAbsolute = false) (hq : q.isAbsolute = false) :
    (p.join q).isAbsolute = false := by
  unfold join
  rw [if_neg (by simp [hq])]
  cases hc : p.text.toList with
  | nil =>
    have : p.text = "" := by simpa using hc
    simpa [this, isAbsolute] using hq
  | cons c cs =>
    have hslash : c ≠ '/' := by simpa [isAbsolute, hc] using hp
    split_ifs <;> simp [isAbsolute, hc, hslash]

/-- a relative path joined to another adds its own segments -/
theorem stretch_join (p : Path) {q : Path} (hq : q.isAbsolute = false) :
    stretch (p.join q).text.toList = stretch p.text.toList ++ stretch q.text.toList := by
  unfold join
  rw [if_neg (by simp [hq])]
  split_ifs with h
  · rcases h with e | e
    · simp [e]
    · obtain ⟨ys, hys⟩ := List.getLast?_eq_some_iff.1 e
      rw [String.toList_append, hys, List.append_assoc, List.singleton_append, stretch_append_slash,
        stretch_append_slash]
      simp
  · simp [stretch_append_slash]

/-- **Joining is going on.** Resolving a joined path goes on where resolving its first part stopped. -/
theorem stack_join (p : Path) {q : Path} (hq : q.isAbsolute = false) :
    (p.join q).stack = (stretch q.text.toList).foldl resolveStep p.stack := by
  rw [stack_eq, stack_eq p, stretch_join p hq, List.foldl_append]
  cases hp : p.isAbsolute with
  | true => rw [isAbsolute_join hp]
  | false => rw [isAbsolute_join_of_relative hp hq]

theorem toList_text_join (p : Path) {q : Path} (hq : q.isAbsolute = false) :
    (p.join q).text.toList = if p.text.toList = [] ∨
    p.text.toList.getLast? = some '/' then p.text.toList ++ q.text.toList
      else p.text.toList ++ '/' :: q.text.toList := by
  unfold join
  simp only [hq, String.toList_eq_nil_iff]
  split_ifs <;> simp_all

/-! ## One component more -/

/-- the characters of components with slashes between them -/
def body (cs : List Component) : List Char := ['/'].intercalate (cs.map fun c => c.text.toList)

theorem body_concat {cs : List Component} (hne : cs ≠ []) (c : Component) :
    body (cs ++ [c]) = body cs ++ '/' :: c.text.toList := by
  unfold body
  induction cs with
  | nil => exact absurd rfl hne
  | cons d ds ih =>
    rcases eq_or_ne ds [] with rfl | hds
    · simp [List.intercalate_cons_cons]
    · rw [List.cons_append, List.map_cons, List.intercalate_cons_of_ne_nil (by simp), ih hds, List.map_cons,
        List.intercalate_cons_of_ne_nil (by simpa using hds)]
      simp

theorem body_ne_nil {cs : List Component} (h : ∀ c ∈ cs, c.Plain) (hne : cs ≠ []) : body cs ≠ [] := by
  intro e
  have := stretch_intercalate h
  rw [← body, e, stretch_nil] at this
  exact hne this.symm

/-- a body does not end in a slash -/
theorem getLast?_body {cs : List Component} (h : ∀ c ∈ cs, c.Plain) : (body cs).getLast? ≠ some '/' := by
  induction cs using List.reverseRecOn with
  | nil => simp [body]
  | append_singleton init last _ =>
    have hlast : last.Plain := h last (by simp)
    have hchar : last.text.toList.getLast? ≠ some '/' := fun e => hlast.slash_notMem (List.mem_of_getLast? e)
    rcases eq_or_ne init [] with rfl | hinit
    · simpa [body] using hchar
    · rw [body_concat hinit, List.append_cons, List.getLast?_append_of_ne_nil _ hlast.text_ne_nil]
      exact hchar

theorem plain_concat {cs : List Component} (h : ∀ c ∈ cs, c.Plain) {d : Component} (hd : d.Plain) :
    ∀ c ∈ cs ++ [d], c.Plain := by
  intro c hc
  rcases List.mem_append.1 hc with hc | hc
  · exact h c hc
  · exact List.mem_singleton.1 hc ▸ hd

theorem isAbsolute_text {c : Component} (hc : c.Plain) : isAbsolute ⟨c.text⟩ = false := by
  cases ht : c.text.toList with
  | nil => simp [isAbsolute, ht]
  | cons d ds =>
    have hne : d ≠ '/' := fun e => hc.slash_notMem (by rw [ht, e]; exact List.mem_cons_self)
    simp [isAbsolute, ht, hne]

/-- one more component is one more name behind a slash -/
theorem ofComponents_concat {cs : List Component} (h : Writable cs) {c : Component} (hc : c.Plain) :
    ofComponents (cs ++ [c]) = (ofComponents cs).join ⟨c.text⟩ := by
  apply eq_of_toList_text
  rw [toList_text_join _ (isAbsolute_text hc)]
  rcases writable_cases h with ⟨ds, rfl, hds⟩ | hp
  · rw [List.cons_append, toList_text_root, toList_text_root, ← body, ← body]
    rcases eq_or_ne ds [] with rfl | hne
    · simp [body]
    · have hlast : ¬('/' :: body ds = [] ∨ ('/' :: body ds).getLast? = some '/') := by
        rintro (e | e)
        · cases e
        · rw [← List.singleton_append, List.getLast?_append_of_ne_nil _ (body_ne_nil hds hne)] at e
          exact getLast?_body hds e
      rw [if_neg hlast, body_concat hne, List.cons_append]
  · rw [toList_text_plain (plain_concat hp hc), toList_text_plain hp, ← body, ← body]
    rcases eq_or_ne cs [] with rfl | hne
    · simp [body]
    · rw [if_neg (by rintro (e | e); exacts [body_ne_nil hp hne e, getLast?_body hp e]), body_concat hne]

/-- a name behind a normal path makes a normal path -/
theorem normalize_join_name {p : Path} (hp : p.normalize = p) {s : String} (hs : (Component.name s).Plain) :
    (p.join ⟨s⟩).normalize = p.join ⟨s⟩ := by
  have hstretch : stretch s.toList = [.name s] := by
    rw [stretch_segment hs.1, hs.2]
    rfl
  have habs : isAbsolute ⟨s⟩ = false := @isAbsolute_text (.name s) hs
  rw [normalize_eq, stack_join p habs, hstretch]
  simp only [List.foldl_cons, List.foldl_nil, resolveStep, List.reverse_cons]
  rw [ofComponents_concat p.stacked_stack.writable_reverse hs, ← normalize_eq, hp]
  rfl

end Path

end ClosurePipeline
