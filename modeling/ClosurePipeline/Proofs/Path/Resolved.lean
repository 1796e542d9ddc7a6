/-
Normalizing as cancelling. A single dot goes, two dots go together with the name in front of them, and two dots behind
the root go alone; normalizing does so until nothing is left to cancel, and writes down what remains.

- `Cancels`, `Steps`: one such step anywhere in a list of components, and any number of them;
- `Resolved`: the lists a normal path has as its components: no dots but two dots at the start of a relative one;
- `eq_resolveDots_of_steps`: in whatever order components cancel, they end in the list that resolving makes in one run;
- `foldl_descend`: walking along the components of a path, by joining a name or leaving a directory, ends at its normal
  path;
- `normalize_acts`: a normal path stays as it is, and a path read from it leads where it leads from the path before.
-/
import Mathlib.Tactic
import Mathlib.Logic.Relation
import ClosurePipeline.Proofs.Path.Relative

namespace ClosurePipeline.Path

/-! ## Cancelling -/

/-- one step of cancelling, anywhere in a list -/
inductive Cancels : List Component → List Component → Prop
  | here (before after : List Component) : Cancels (before ++ .here :: after) (before ++ after)
  | name (before : List Component) (s : String) (after : List Component) :
    Cancels (before ++ .name s :: .up :: after) (before ++ after)
  | root (before after : List Component) : Cancels (before ++ .root :: .up :: after) (before ++ .root :: after)

/-- any number of steps of cancelling -/
abbrev Steps : List Component → List Component → Prop := Relation.ReflTransGen Cancels

/-- a step changes nothing about where a list leads -/
theorem Cancels.resolveDots_eq {cs ds : List Component} (h : Cancels cs ds) : resolveDots cs = resolveDots ds := by
  cases h with
  | here before after => simp [resolveDots, resolveStep]
  | name before s after => simp [resolveDots, resolveStep]
  | root before after => simp [resolveDots, resolveStep]

theorem Steps.resolveDots_eq {cs ds : List Component} (h : Steps cs ds) : resolveDots cs = resolveDots ds := by
  induction h with
  | refl => rfl
  | tail _ hstep ih => exact ih.trans hstep.resolveDots_eq

/-- what resolving does with one component is to push it or to cancel -/
theorem steps_resolveStep (st : List Component) (c : Component) (cs : List Component) :
    Steps (st.reverse ++ c :: cs) ((resolveStep st c).reverse ++ cs) := by
  have hpush : st.reverse ++ c :: cs = (c :: st).reverse ++ cs := by simp
  cases c with
  | root => exact hpush ▸ .refl
  | name s => exact hpush ▸ .refl
  | here => exact .single (.here st.reverse cs)
  | up =>
    cases st with
    | nil => exact hpush ▸ .refl
    | cons d st =>
      cases d with
      | here => exact hpush ▸ .refl
      | up => exact hpush ▸ .refl
      | name s => simpa [resolveStep] using Relation.ReflTransGen.single (Cancels.name st.reverse s cs)
      | root => simpa [resolveStep] using Relation.ReflTransGen.single (Cancels.root st.reverse cs)

theorem steps_foldl (cs : List Component) :
    ∀ st : List Component, Steps (st.reverse ++ cs) (cs.foldl resolveStep st).reverse := by
  induction cs with
  | nil => intro st; simpa using Relation.ReflTransGen.refl
  | cons c cs ih => exact fun st => (steps_resolveStep st c cs).trans (ih _)

theorem steps_resolveDots (cs : List Component) : Steps cs (resolveDots cs) := steps_foldl cs []

/-- **Cancelling has one end.** A list in which nothing is left to cancel is the one that resolving makes. -/
theorem eq_resolveDots_of_steps {cs ds : List Component} (h : Steps cs ds) (hend : ∀ es, ¬ Cancels ds es) :
    ds = resolveDots cs := by
  rw [h.resolveDots_eq]
  rcases (steps_resolveDots ds).cases_head with e | ⟨es, hstep, -⟩
  · exact e
  · exact absurd hstep (hend es)

/-! ## Resolved lists -/

/-- what is left when everything has cancelled -/
structure Resolved (cs : List Component) : Prop where
  here_notMem : .here ∉ cs
  /-- no two dots anywhere behind a name -/
  up_notMem_of_name : ∀ before s after, cs = before ++ .name s :: after → .up ∉ after
  /-- nor anywhere behind the root -/
  up_notMem_of_root : .root ∈ cs → .up ∉ cs

/-- nothing cancels in a resolved list -/
theorem Resolved.not_cancels {cs : List Component} (h : Resolved cs) (ds : List Component) : ¬ Cancels cs ds := by
  intro hstep
  cases hstep with
  | here before after => exact h.here_notMem (by simp)
  | name before s after => exact h.up_notMem_of_name before s (.up :: after) rfl List.mem_cons_self
  | root before after => exact h.up_notMem_of_root (by simp) (by simp)

theorem Stacked.here_notMem {st : List Component} (h : Stacked st) : .here ∉ st := by
  intro hmem
  rcases h.root_or_plain with ⟨ns, rfl, hns⟩ | hp
  · rcases List.mem_append.1 hmem with hmem | hmem
    · exact hns _ hmem
    · simp at hmem
  · exact hp _ hmem

/-- on a stack, what lies above a name are names -/
theorem Stacked.up_notMem_of_name {st : List Component} (h : Stacked st) {above below : List Component} {s : String}
    (e : st = above ++ .name s :: below) : .up ∉ above := by
  induction st generalizing above with
  | nil => simp at e
  | cons c st ih =>
    cases above with
    | nil => simp
    | cons d above =>
      rw [List.cons_append] at e
      obtain ⟨rfl, hst⟩ := List.cons.inj e
      have hname : Component.name s ∈ st := hst ▸ List.mem_append_right _ List.mem_cons_self
      cases c with
      | root => simp only [Stacked] at h; subst h; cases hname
      | here => exact h.elim
      | up => cases h _ hname
      | name t => simpa using ih h.2 hst

theorem Stacked.up_notMem_of_root {st : List Component} (h : Stacked st) (hroot : .root ∈ st) : .up ∉ st := by
  induction st with
  | nil => simp
  | cons c st ih =>
    cases c with
    | root => simp only [Stacked] at h; subst h; simp
    | here => exact h.elim
    | up => cases h _ (by simpa using hroot)
    | name t => simpa using ih h.2 (by simpa using hroot)

theorem resolved_of_stacked {st : List Component} (h : Stacked st) : Resolved st.reverse := by
  refine ⟨by simpa using h.here_notMem, fun before s after e => ?_, by simpa using h.up_notMem_of_root⟩
  have hst : st = after.reverse ++ .name s :: before.reverse := by
    rw [← List.reverse_reverse st, e]
    simp
  simpa using h.up_notMem_of_name hst

/-! ## Walking -/

/-- one component further from a path, as text: a name is joined, two dots leave the directory the path names -/
def descend (p : Path) : Component → Path
  | .here => p
  | .up =>
    match p.components.getLast? with
    | some (.name _) => p.parent?.getD p
    | some .root => p
    | _ => p.join ⟨".."⟩
  | c => p.join ⟨c.text⟩

theorem segmentsBack_texts {cs : List Component} (h : ∀ c ∈ cs, c.Plain) :
    segmentsBack (cs.map fun c => c.text.toList) = (cs.map fun c => c.text.toList).reverse := by
  rw [segmentsBack]
  cases hr : (cs.map fun c => c.text.toList).reverse with
  | nil => rfl
  | cons s rest =>
    have hs : s ∈ cs.map fun c => c.text.toList := List.mem_reverse.1 (hr ▸ List.mem_cons_self)
    obtain ⟨c, hc, rfl⟩ := List.mem_map.1 hs
    rw [List.dropWhile_cons_of_neg (by simp [(h c hc).ofSegment_text])]

/-- cutting the last segment off a body leaves the segments in front of it -/
theorem segmentsBack_splitOn_body {cs : List Component} (h : ∀ c ∈ cs, c.Plain) {d : Component} (hd : d.Plain) :
    segmentsBack ((body (cs ++ [d])).splitOn '/') = d.text.toList :: (cs.map fun c => c.text.toList).reverse := by
  have hall := plain_concat h hd
  have hno : ∀ l ∈ (cs ++ [d]).map (fun c => c.text.toList), '/' ∉ l := by
    intro l hl
    obtain ⟨c, hc, rfl⟩ := List.mem_map.1 hl
    exact (hall c hc).slash_notMem
  rw [body, List.splitOn_intercalate _ hno (by simp), segmentsBack_texts hall]
  simp

theorem parent?_of_body {p : Path} {cs : List Component} (h : ∀ c ∈ cs, c.Plain) {d : Component} (hd : d.Plain)
    (hp : p.segments = (body (cs ++ [d])).splitOn '/') : p.parent? = some ⟨String.ofList (p.lead ++ body cs)⟩ := by
  rw [parent?, hp, segmentsBack_splitOn_body h hd]
  simp only [List.reverse_reverse, segmentsBack_texts h]
  rfl

/-- the directory of a path written out is written out too -/
theorem parent?_ofComponents_concat {cs : List Component} (h : Writable cs) {s : String}
    (hs : (Component.name s).Plain) :
    (ofComponents (cs ++ [.name s])).parent? = some (ofComponents cs) := by
  rcases writable_cases h with ⟨ds, rfl, hds⟩ | hp
  · have ht := toList_text_root (ds ++ [.name s])
    have hlead : (ofComponents (.root :: (ds ++ [.name s]))).lead = ['/'] :=
      lead_of_isAbsolute (by simp [isAbsolute, ht])
    rw [List.cons_append, parent?_of_body hds hs (by rw [segments, hlead, ht]; rfl), hlead]
    exact congrArg some (eq_of_toList_text (by rw [toList_text_root]; simp [body]))
  · have hall := plain_concat hp hs
    have hlead := lead_ofComponents hall
    rw [parent?_of_body hp hs (by rw [segments, hlead, toList_text_plain hall]; rfl), hlead]
    exact congrArg some (eq_of_toList_text (by rw [toList_text_plain hp]; simp [body]))

/-- a step of the walk is a step of resolving, written out -/
theorem descend_ofComponents {st : List Component} (h : Stacked st) {c : Component} (hc : c.Plain) :
    descend (ofComponents st.reverse) c = ofComponents (resolveStep st c).reverse := by
  have hw := h.writable_reverse
  have hjoin : (ofComponents st.reverse).join ⟨c.text⟩ = ofComponents (c :: st).reverse := by
    rw [List.reverse_cons, ofComponents_concat hw hc]
  cases c with
  | root => exact hc.elim
  | here => exact hc.elim
  | name s => exact hjoin
  | up =>
    rw [descend, components_ofComponents hw, List.getLast?_reverse]
    cases st with
    | nil => exact hjoin
    | cons d st =>
      cases d with
      | root => rfl
      | here => exact h.elim
      | up => exact hjoin
      | name s =>
        have hback : Writable st.reverse := h.2.writable_reverse
        simp only [List.head?_cons, List.reverse_cons, parent?_ofComponents_concat hback h.1]
        rfl

theorem foldl_descend {cs : List Component} (hcs : ∀ c ∈ cs, c.Plain) : ∀ {st : List Component}, Stacked st →
    cs.foldl descend (ofComponents st.reverse) = ofComponents (cs.foldl resolveStep st).reverse := by
  induction cs with
  | nil => exact fun _ => rfl
  | cons c cs ih =>
    intro st h
    have hc : c.Plain := hcs c List.mem_cons_self
    rw [List.foldl_cons, descend_ofComponents h hc, List.foldl_cons]
    exact ih (fun d hd => hcs d (List.mem_cons_of_mem _ hd)) (stacked_resolveStep h hc)

/-- **Normalizing is a walk.** Going along the components of a path from nowhere, a name at a time, ends at its normal
path. -/
theorem normalize_eq_foldl_descend (p : Path) : p.normalize = p.components.foldl descend empty := by
  have hplain : ∀ c ∈ stretch p.text.toList, c.Plain := fun c hc => plain_of_mem_stretch hc
  rw [normalize_eq, stack_eq, components_eq, List.foldl_append]
  cases hp : p.isAbsolute with
  | true =>
    rw [leadComponents_of_isAbsolute hp]
    exact (@foldl_descend _ hplain [.root] rfl).symm
  | false =>
    have hstart : p.leadComponents.foldl descend empty = empty := by
      rcases leadComponents_of_not_isAbsolute hp with e | e <;> rw [e] <;> rfl
    rw [hstart]
    exact (@foldl_descend _ hplain [] trivial).symm

/-! ## Normal paths -/

/-- the components of a path cancel to those of its normal path, and there is nothing left to cancel -/
theorem steps_components_normalize (p : Path) :
    Steps p.components p.normalize.components ∧ Resolved p.normalize.components := by
  rw [components_normalize]
  exact ⟨steps_resolveDots p.components, resolved_of_stacked p.stacked_stack⟩

/-- no other list is an end of cancelling -/
theorem eq_components_normalize_iff (p : Path) {cs : List Component} :
    cs = p.normalize.components ↔ Steps p.components cs ∧ Resolved cs := by
  constructor
  · rintro rfl
    exact steps_components_normalize p
  · rintro ⟨hsteps, hresolved⟩
    rw [eq_resolveDots_of_steps hsteps hresolved.not_cancels, components_normalize, resolveDots_components]

/-- a normal path is written as its components say, with nothing else in its text -/
theorem ofComponents_components_normalize (p : Path) : ofComponents p.normalize.components = p.normalize := by
  rw [components_normalize, normalize_eq]

/-- the root of an absolute path stays -/
theorem root_mem_components_normalize {p : Path} (hp : p.isAbsolute = true) : .root ∈ p.normalize.components := by
  obtain ⟨ns, e, -⟩ := rooted_stack hp
  rw [components_normalize, e]
  simp

/-- what is read from a path and from its normal path leads to one place -/
theorem normalize_normalize_join (p q : Path) : (p.normalize.join q).normalize = (p.join q).normalize := by
  cases hq : q.isAbsolute with
  | true => simp [join, hq]
  | false =>
    apply normalize_eq_of_stack_eq
    calc (p.normalize.join q).stack
        = (stretch q.text.toList).foldl resolveStep p.normalize.stack := stack_join p.normalize hq
      _ = (stretch q.text.toList).foldl resolveStep p.stack := by rw [stack_normalize]
      _ = (p.join q).stack := (stack_join p hq).symm

/-- **Normalizing is an action of joining.** The normal path of `a` is normal already. Its components are those of `a`
with the dots cancelled: no single dot is left, no two dots behind a name, and none at all if `a` is absolute; and its
text is these components written out. A path `b` read from it leads to the same normal path as read from `a`, so that a
path may be resolved step by step or at once. -/
theorem normalize_acts (a b : Path) :
    a.normalize.normalize = a.normalize ∧
    Steps a.components a.normalize.components ∧ Resolved a.normalize.components ∧
    (a.isAbsolute = true → .up ∉ a.normalize.components) ∧ ofComponents a.normalize.components = a.normalize ∧
    (a.normalize.join b).normalize = (a.join b).normalize := by
  obtain ⟨hsteps, hresolved⟩ := steps_components_normalize a
  refine ⟨normalize_normalize a, hsteps, hresolved, fun ha => ?_, ofComponents_components_normalize a,
    normalize_normalize_join a b⟩
  exact hresolved.up_notMem_of_root (root_mem_components_normalize ha)

/-- leading dots of a relative path stay, and dots at the root do not -/
example : normalize ⟨"a/../../b/."⟩ = ⟨"../b"⟩ ∧ normalize ⟨"/a/../../b/."⟩ = ⟨"/b"⟩ := by decide +kernel

end ClosurePipeline.Path
