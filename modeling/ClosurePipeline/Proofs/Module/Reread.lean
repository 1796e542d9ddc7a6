/-
A statement read again. The readers of imports, exports and declarations, started at level cursors of two rows that
differ in comments, come out in one of three ways (`Ends`):
- level again, having found the same or both nothing;
- the reader of the new row halts at a comment that has been put in front of a declaration, and has found nothing;
- the reader of the old row goes over the start of a declaration with needs, which is then no statement of its own.

- `ImportDecl.ends_read`, `ExportDecl.ends_readAll`, `ExportDecl.ends_readNamed`: imports and exports;
- `Heritage.read_cases`: the types that a declaration builds on.
-/
import Mathlib.Tactic
import ClosurePipeline.Proofs.Module.Noted

namespace ClosurePipeline

/-! ## Ways to end -/

namespace Cursor

variable {need : Nat → Option (List String)} {c₀ c c' k k' : Cursor}

theorem Onward.ahead_le (h : c₀.Onward c) : c.ahead ≤ c₀.ahead := by
  induction h with
  | refl => exact Nat.le_refl _
  | pass _ ih => exact (Nat.le_succ _).trans ih

theorem Onward.exists_prev (h : c₀.Onward c) (hprev : ∃ p, c₀.prev = some p) : ∃ p, c.prev = some p := by
  cases h with
  | refl => exact hprev
  | pass _ => exact ⟨_, rfl⟩

theorem Onward.next_next (h : c₀.Onward c) : c₀.next.Onward c.next := by
  induction h with
  | refl => exact .refl
  | pass _ ih => exact ih.next

theorem Onward.eq_or_next (h : c₀.Onward c) : c = c₀ ∨ c₀.next.Onward c := by
  induction h with
  | refl => exact Or.inl rfl
  | pass h ih =>
    rcases ih with rfl | h
    · exact Or.inr .refl
    · exact Or.inr h.pass

theorem Onward.next_of_lt (h : c₀.Onward c) (hlt : c.ahead < c₀.ahead) : c₀.next.Onward c := by
  rcases h.eq_or_next with rfl | h
  · exact absurd hlt (Nat.lt_irrefl _)
  · exact h

/-- of two places ahead one is ahead of the other -/
theorem Onward.total (h : c₀.Onward c) (h' : c₀.Onward k) : c.Onward k ∨ k.Onward c := by
  induction h with
  | refl => exact Or.inl h'
  | pass _ ih =>
    rcases ih with hk | hk
    · rcases hk.eq_or_next with rfl | hk
      · exact Or.inr (Onward.refl.pass)
      · exact Or.inl hk
    · exact Or.inr hk.pass

/-- a reader that started at `c₀` has gone over the start of a declaration with needs -/
def Oversteps (need : Nat → Option (List String)) (c₀ k : Cursor) : Prop :=
  ∃ z t ts, c₀.next.Onward z ∧ z.rest = t :: ts ∧ need t.start ≠ none ∧ z.next.Onward k

/-- a reader of the new row has halted in front of a declaration that is ahead of `c₀` -/
def Halts (need : Nat → Option (List String)) (c₀ k' : Cursor) : Prop := ∃ z, c₀.Onward z ∧ Halted need z k'

/-- the places where two readings end that started at `c₀` and level with it -/
inductive Ends (need : Nat → Option (List String)) (c₀ : Cursor) : Option Cursor → Option Cursor → Prop where
  | level {x x' : Option Cursor} (h : Option.Rel (Level need) x x') : Ends need c₀ x x'
  | halts {x : Option Cursor} {k' : Cursor} (h : Halts need c₀ k') : Ends need c₀ x (some k')
  | oversteps {k : Cursor} {x' : Option Cursor} (h : Oversteps need c₀ k) : Ends need c₀ (some k) x'

theorem Oversteps.onward (h : Oversteps need c₀ c) (hk : c.Onward k) : Oversteps need c₀ k := by
  obtain ⟨z, t, ts, hz, hrest, hneed, hon⟩ := h
  exact ⟨z, t, ts, hz, hrest, hneed, hon.trans hk⟩

/-- what is behind the token where the other reader halts -/
theorem Halted.oversteps (h : Halted need c c') (hon : c₀.next.Onward c) (hk : c.next.Onward k) :
    Oversteps need c₀ k := by
  obtain ⟨t, ts, hrest, -, -, hneed⟩ := h.ahead
  exact ⟨c, t, ts, hon, hrest, hneed, hk⟩

theorem Halts.ident?_eq_none (h : Halts need c₀ k') : k'.ident? 0 = none := by
  obtain ⟨z, -, hz⟩ := h
  exact hz.ident?_new

/-- where nothing is found the cursors stay -/
theorem Ends.getD {x x' : Option Cursor} (h : Ends need c₀ x x') (hc : Level need c c') :
    Ends need c₀ (some (x.getD c)) (some (x'.getD c')) := by
  cases h with
  | level h =>
    cases h with
    | none => exact .level (.some hc)
    | some h => exact .level (.some h)
  | halts h => exact .halts h
  | oversteps h => exact .oversteps h

theorem Onward.of_next (h : c₀.next.Onward c) : c₀.Onward c := Onward.refl.next.trans h

end Cursor

open Cursor

section

variable {need : Nat → Option (List String)} {c₀ c c' : Cursor}

/-! ## Imports -/

theorem onward_behindFrom? {k : Cursor} (h : c₀.Onward c) (hk : c.behindFrom? = some k) : c₀.Onward k := by
  unfold Cursor.behindFrom? at hk
  split_ifs at hk
  · obtain ⟨specifier, -, rfl⟩ := Option.map_eq_some_iff.1 hk
    exact h.skip 2
  · cases hk
    exact h

theorem level_behindFrom? (h : Level need c c') : Option.Rel (Level need) c.behindFrom? c'.behindFrom? := by
  unfold Cursor.behindFrom?
  rw [h.isIdent (by decide)]
  split_ifs with hfrom
  · have hat := h.abreast_of_isIdent (by decide) hfrom
    rw [hat.str?_one, str?_add_one]
    cases hs : c.next.str? 0 with
    | none => exact .none
    | some s => exact .some (hat.next.abreast_of_str? hs).next
  · exact .some h

namespace ImportDecl

variable {line line' : Nat} {pending pending' : List Pending}

theorem onward_readSource (h : c₀.Onward c) {r : Option ImportDecl × Cursor} (hr : readSource line pending c = some r) :
    c₀.Onward r.2 :=
  onward_behindFrom? h (by rw [← place_readSource line pending, hr]; rfl)

theorem level_readSource (h : Level need c c') :
    Option.Rel (Level need) ((readSource line pending c).map Prod.snd)
      ((readSource line' pending' c').map Prod.snd) := by
  rw [place_readSource, place_readSource]
  exact level_behindFrom? h

theorem ends_readBindings (h : Level need c c') (hon : c₀.next.Onward c) :
    Ends need c₀ ((readBindings line pending c).map Prod.snd) ((readBindings line' pending' c').map Prod.snd) := by
  unfold readBindings
  rw [h.isPunct (by decide), h.isPunct (by decide)]
  by_cases hstar : c.isPunct 0 '*' = true
  · -- no comment is put behind the star, but one may be behind the word `as`
    have hbehind := (h.abreast_of_isPunct (by decide) hstar).next
    have hnext := h.abreast_next (by decide) hstar
    rw [if_pos hstar, if_pos hstar, isIdent_add_one, isIdent_add_one, hnext.isIdent_eq]
    split_ifs
    · rw [ident?_add_one c', ident?_add_one c'.next, ident?_add_one c, ident?_add_one c.next]
      rcases hnext.next.cases with hname | hname
      · rw [hname.ident?_eq]
        cases c.next.next.ident? 0 with
        | none => exact .level .none
        | some name => exact .level (level_readSource hname.next)
      · rw [hname.ident?_new]
        cases c.next.next.ident? 0 with
        | none => exact .level .none
        | some name =>
          change Ends need c₀ ((readSource line (pending ++ [⟨name, "*", .wildcard⟩]) (c.skip 3)).map Prod.snd) none
          cases hr : readSource line (pending ++ [⟨name, "*", .wildcard⟩]) (c.skip 3) with
          | none => exact .level .none
          | some r => exact .oversteps (hname.oversteps hon.next.next (onward_readSource .refl hr))
    · exact .level (.some hbehind)
  rw [if_neg hstar, if_neg hstar]
  split_ifs with hbrace
  · have he := h.enclosed? '{' '}' (by decide)
    revert he
    generalize c.enclosed? '{' '}' = x
    generalize c'.enclosed? '{' '}' = x'
    rintro (hafter | hnone)
    · exact .level (level_readSource hafter)
    · exact .level .none
  · exact .level (level_readSource h)

theorem level_readRequire (h : Level need c.next c'.next) (hassign : c.next.isPunct 0 '=' = true)
    (name name' : String) :
    Level need (readRequire name line c).2 (readRequire name' line' c').2 := by
  have hbehind := (h.abreast_of_isPunct (by decide) hassign).next
  have hword := h.abreast_next (by decide) hassign
  have hplace : ∀ (name : String) (line : Nat) (k : Cursor), (readRequire name line k).2 =
      if k.next.next.isIdent 0 "require" && k.next.next.isPunct 1 '(' then
        if (k.next.next.next.str? 1).isSome then k.skip 5 else k.skip 2
      else k.skip 2 := by
    intro name line k
    unfold readRequire
    rw [isIdent_add_one k, isIdent_add_one k.next, isPunct_add_one k, isPunct_add_one k.next, str?_add_one k,
      str?_add_one k.next, str?_add_one k.next.next]
    cases k.next.next.next.str? 1 <;> split_ifs <;> simp_all
  rw [hplace, hplace, hword.isIdent_eq, hword.isPunct_one (by decide)]
  by_cases hrequire : (c.next.next.isIdent 0 "require" && c.next.next.isPunct 1 '(') = true
  · rw [if_pos hrequire, if_pos hrequire]
    rw [isPunct_add_one] at hrequire
    have hparen := hword.next.abreast_of_isPunct (by decide) (Bool.and_eq_true_iff.1 hrequire).2
    have hmodule := hparen.abreast_next (by decide) (Bool.and_eq_true_iff.1 hrequire).2
    rw [hparen.str?_one]
    split_ifs
    · exact hmodule.next
    · exact hbehind
  · rw [if_neg hrequire, if_neg hrequire]
    exact hbehind

/-- in front of a comment no clause is read -/
theorem readClause_of_halted (h : Halted need c c') : readClause line c' = some (none, c') := by
  simp [readClause, h.ident?_new, readBindings, readSource, h.isPunct_new, h.isIdent_new]

theorem ends_readClause (h : Level need c c') (hon : c₀.next.Onward c) :
    Ends need c₀ ((readClause line c).map Prod.snd) ((readClause line' c').map Prod.snd) := by
  rcases h.cases with hword | hword
  · unfold readClause
    rw [hword.ident?_eq]
    cases (c.ident? 0).filter (· ≠ "from") with
    | none => exact ends_readBindings h hon
    | some name =>
      simp only [hword.isPunct_one (show '=' ≠ '@' by decide), hword.isPunct_one (show ',' ≠ '@' by decide)]
      split_ifs with hassign hcomma
      · rw [isPunct_add_one] at hassign
        exact .level (.some (level_readRequire hword.next hassign name name))
      · rw [isPunct_add_one] at hcomma
        exact ends_readBindings (hword.next.abreast_of_isPunct (by decide) hcomma).next hon.next.next
      · exact ends_readBindings hword.next hon.next
  · rw [readClause_of_halted hword]
    exact .halts ⟨c, hon.of_next, hword⟩

/-- **Imports.** The cursor is behind the word `import`. -/
theorem ends_read (h : Level need c c') (hon : c₀.next.Onward c) :
    Ends need c₀ (some (read line c).2) (some (read line' c').2) := by
  unfold ImportDecl.read
  rw [h.isPunct (by decide), h.isPunct (by decide), h.str?]
  split_ifs
  · exact .level (.some h)
  cases hs : c.str? 0 with
  | some s => exact .level (.some (h.abreast_of_str? hs).next)
  | none =>
    have hgetD : ∀ (r : Option (Option ImportDecl × Cursor)) (k : Cursor),
        (r.getD (none, k)).2 = (r.map Prod.snd).getD k := by
      rintro (_ | r) k <;> rfl
    simp only [hgetD]
    rcases h.cases with hword | hword
    · refine Ends.getD ?_ h
      unfold skipType
      rw [hword.isIdent_eq, hword.isIdent_one (by decide), hword.isPunct_one (by decide), hword.isPunct_one (by decide)]
      split_ifs
      · exact ends_readClause hword.next hon.next
      · exact ends_readClause h hon
    · have hskip : skipType c' = c' := by simp [skipType, hword.isIdent_new]
      rw [hskip, readClause_of_halted hword]
      exact .halts ⟨c, hon.of_next, hword⟩

end ImportDecl

/-! ## Exports -/

namespace ExportDecl

variable {line line' : Nat}

theorem onward_readModule (h : c₀.Onward c) {clause : ExportClause} {r : Option ExportDecl × Cursor}
    (hr : readModule line clause c = some r) :
    c₀.Onward r.2 := onward_behindFrom? h (by rw [← place_readModule line clause, hr]; rfl)

theorem level_readModule (h : Level need c c') (clause clause' : ExportClause) :
    Option.Rel (Level need) ((readModule line clause c).map Prod.snd) ((readModule line' clause' c').map Prod.snd) := by
  rw [place_readModule, place_readModule]
  exact level_behindFrom? h

theorem ends_readAll (h : Level need c c') (hon : c₀.next.Onward c) :
    Ends need c₀ ((readAll line c).map Prod.snd) ((readAll line' c').map Prod.snd) := by
  rw [readAll_eq_bind, readAll_eq_bind, h.isIdent (by decide)]
  split_ifs with has
  · rw [name?_add_one, name?_add_one]
    rcases (h.abreast_of_isIdent (by decide) has).next.cases with hname | hname
    · rw [hname.name?_eq]
      cases c.next.name? 0 with
      | none => exact .level .none
      | some name => exact .level (level_readModule hname.next _ _)
    · rw [hname.name?_new]
      cases hr : (c.next.name? 0).bind fun name => readModule line (.wildcard name) (c.skip 2) with
      | none => exact .level .none
      | some r =>
        obtain ⟨name, -, hr⟩ := Option.bind_eq_some_iff.1 hr
        exact .oversteps (hname.oversteps hon.next (onward_readModule .refl hr))
  · exact .level (level_readModule h _ _)

theorem ends_readNamed (h : Level need c c') (hon : c₀.next.Onward c) :
    Ends need c₀ ((readNamed line c).map Prod.snd) ((readNamed line' c').map Prod.snd) := by
  have hplace : ∀ (line : Nat) (k : Cursor), (readNamed line k).map Prod.snd =
      (k.enclosed? '{' '}').map fun e => if e.after.isIdent 0 "from" then e.after.skip 2 else e.after := by
    intro line k
    unfold readNamed
    cases k.enclosed? '{' '}' with
    | none => rfl
    | some e => by_cases hfrom : e.after.isIdent 0 "from" = true <;> simp [hfrom]
  rw [hplace, hplace]
  have he := h.enclosed? '{' '}' (by decide)
  cases hold : c.enclosed? '{' '}' with
  | none =>
    rw [hold] at he
    generalize c'.enclosed? '{' '}' = x' at he ⊢
    cases he
    exact .level .none
  | some e =>
    have hbehind := (hon.enclosed? hold).2
    rw [hold] at he
    generalize c'.enclosed? '{' '}' = x' at he ⊢
    cases he with
    | @some _ e' hafter =>
      simp only [Option.map_some, hafter.isIdent (show "from" ∉ openingWords by decide)]
      split_ifs with hfrom
      · -- whatever stands behind `from` is taken for the module
        rcases (hafter.abreast_of_isIdent (by decide) hfrom).next.cases with hmodule | hmodule
        · exact .level (.some hmodule.next)
        · exact .oversteps (hmodule.oversteps hbehind.next .refl)
      · exact .level (.some hafter)

end ExportDecl

/-! ## What a declaration builds on -/

namespace Heritage

/-- the place behind what a type is applied to -/
def behindArguments (c : Cursor) : Cursor :=
  if c.skipTypeArguments.isPunct 0 '(' then
    ((c.skipTypeArguments.enclosed? '(' ')').map Enclosed.after).getD c.skipTypeArguments
  else c.skipTypeArguments

theorem readTypes_eq (c : Cursor) : readTypes c =
    match c.dottedName? with
    | none => ([], c)
    | some (name, k) =>
      if (behindArguments k).isPunct 0 ',' then
        (name :: (readTypes (behindArguments k).next).1, (readTypes (behindArguments k).next).2)
      else ([name], behindArguments k) := by
  rw [readTypes]
  unfold behindArguments
  split
  · rename_i hname
    rw [hname]
  · rename_i name k hname
    simp only [hname]
    by_cases hparen : k.skipTypeArguments.isPunct 0 '(' = true
    · simp only [if_pos hparen]
      split
      · rename_i hnone
        -- at a parenthesis there is no comma
        have hcomma : k.skipTypeArguments.isPunct 0 ',' = false := by
          by_contra hcomma
          rw [Bool.not_eq_false] at hcomma
          obtain ⟨t, ts, hrest⟩ := List.exists_cons_of_ne_nil (rest_ne_nil_of_isPunct hparen)
          simp only [isPunct, hrest, List.getElem?_cons_zero, Option.map_some, Option.getD_some, Token.isPunct,
            beq_iff_eq] at hparen hcomma
          rw [hparen] at hcomma
          cases hcomma
        simp [hnone, hcomma]
      · rename_i e he
        simp only [he, Option.map_some, Option.getD_some]
    · simp only [if_neg hparen]

theorem level_behindArguments (h : Level need c c') : Level need (behindArguments c) (behindArguments c') := by
  have hangles := h.skipTypeArguments
  unfold behindArguments
  rw [hangles.isPunct (by decide)]
  split_ifs
  · have he := hangles.enclosed? '(' ')' (by decide)
    generalize c.skipTypeArguments.enclosed? '(' ')' = x at he ⊢
    generalize c'.skipTypeArguments.enclosed? '(' ')' = x' at he ⊢
    cases he with
    | none => exact hangles
    | some hafter => exact hafter
  · exact hangles

theorem onward_behindArguments (h : c₀.Onward c) : c₀.Onward (behindArguments c) := by
  unfold behindArguments
  split_ifs
  · cases he : c.skipTypeArguments.enclosed? '(' ')' with
    | none => exact h.skipTypeArguments
    | some e => exact (h.skipTypeArguments.enclosed? he).2
  · exact h.skipTypeArguments

/-- the types are the same, unless one of them was the start of a declaration -/
theorem readTypes_cases (h : Level need c c') (hon : c₀.next.Onward c) :
    (readTypes c').1 = (readTypes c).1 ∧ Level need (readTypes c).2 (readTypes c').2 ∨
    Oversteps need c₀ (readTypes c).2 := by
  induction hn : c.ahead using Nat.strongRecOn generalizing c c' with
  | ind n ih =>
    rcases h.cases with hword | hword
    · have hname := hword.dottedName?
      rw [readTypes_eq c, readTypes_eq c']
      cases hold : c.dottedName? with
      | none =>
        rw [hold] at hname
        generalize c'.dottedName? = x' at hname ⊢
        cases hname
        exact Or.inl ⟨rfl, h⟩
      | some r =>
        obtain ⟨name, k⟩ := r
        rw [hold] at hname
        generalize c'.dottedName? = x' at hname ⊢
        cases hname with
        | @some _ r' hk =>
          obtain ⟨name', k'⟩ := r'
          obtain ⟨rfl, hk⟩ := hk
          have hbehind := level_behindArguments hk
          simp only [hbehind.isPunct (show ',' ≠ '@' by decide)]
          split_ifs with hcomma
          · have hrest := (hbehind.abreast_of_isPunct (by decide) hcomma).next
            have hahead :=
              ((onward_behindArguments (@Onward.refl k)).next.ahead_le).trans_lt (ahead_dottedName?_lt hold)
            rw [hn] at hahead
            rcases ih _ hahead hrest (onward_behindArguments (hon.dottedName? hold)).next rfl with
                ⟨htypes, hend⟩ | hover
            · exact Or.inl ⟨by rw [htypes], hend⟩
            · exact Or.inr hover
          · exact Or.inl ⟨rfl, hbehind⟩
    · -- the new reader finds no name
      have hnone : readTypes c' = ([], c') := by
        rw [readTypes_eq]
        simp [Cursor.dottedName?, hword.ident?_new]
      rw [hnone, readTypes_eq c]
      cases hold : c.dottedName? with
      | none => exact Or.inl ⟨rfl, h⟩
      | some r =>
        have hbehind := onward_behindArguments (onward_next_dottedName? hold)
        refine Or.inr (hword.oversteps hon ?_)
        simp only
        split_ifs
        · exact onward_readTypes hbehind.next
        · exact hbehind

/-- **The lists of a class or interface** are the same, unless one of the types was the start of a declaration. -/
theorem read_cases (h : Level need c c') (hon : c₀.next.Onward c) (x : Heritage) :
    (Heritage.read x c').1 = (Heritage.read x c).1 ∧ Level need (Heritage.read x c).2 (Heritage.read x c').2 ∨
      Oversteps need c₀ (Heritage.read x c).2 := by
  induction hn : c.ahead using Nat.strongRecOn generalizing c c' x with
  | ind n ih =>
    have list : ∀ {w : String} (y : List String → Heritage), w ∉ openingWords → c.isIdent 0 w = true →
        (Heritage.read (y (readTypes c'.next).1) (readTypes c'.next).2).1 =
          (Heritage.read (y (readTypes c.next).1) (readTypes c.next).2).1 ∧
            Level need (Heritage.read (y (readTypes c.next).1) (readTypes c.next).2).2
              (Heritage.read (y (readTypes c'.next).1) (readTypes c'.next).2).2 ∨
          Oversteps need c₀ (Heritage.read (y (readTypes c.next).1) (readTypes c.next).2).2 := by
      intro w y hw hi
      have hahead :=
        (onward_readTypes (@Onward.refl c.next)).ahead_le.trans_lt (ahead_skip_one_lt c (rest_ne_nil_of_isIdent hi))
      rw [hn] at hahead
      rcases readTypes_cases (h.abreast_of_isIdent hw hi).next hon.next with ⟨htypes, hend⟩ | hover
      · rw [htypes]
        exact ih _ hahead hend (onward_readTypes hon.next) _ rfl
      · exact Or.inr (hover.onward (onward_read .refl _))
    rw [Heritage.read.eq_def x c, Heritage.read.eq_def x c', h.isIdent (by decide), h.isIdent (by decide)]
    split_ifs with hextends himplements
    · exact list (fun types => { x with extended := x.extended ++ types }) (by decide) hextends
    · exact list (fun types => { x with implemented := x.implemented ++ types }) (by decide) himplements
    · exact Or.inl ⟨rfl, h⟩

end Heritage

end

end ClosurePipeline
