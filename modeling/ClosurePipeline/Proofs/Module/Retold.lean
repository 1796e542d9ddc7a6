/-
A declaration found again. Where a statement is read again in a row that differs in comments, a declaration that is
found was found before: it is of the same kind, builds on the same types, and its comment has all the tags it had and
those it needed.

- `Retold`: a declaration and what it is in the new row;
- `Decorator.readAll?_cases`, `Modifiers.read_cases`, `Declaration.reread_readRest`: the parts of a declaration;
- `Reread`: how two readings of a statement end.
-/
import Mathlib.Tactic
import ClosurePipeline.Proofs.Module.Reread

namespace ClosurePipeline

open Cursor

section

variable {need : Nat → Option (List String)} {c₀ c c' : Cursor}

/-! ## Decorators -/

namespace Decorator

variable {source source' : List Char}

theorem place_read? (hat : c.isPunct 0 '@' = true) : (read? source c).map Prod.snd =
    (c.next.dottedName?).bind fun r => if r.2.isPunct 0 '(' then (r.2.enclosed? '(' ')').map Enclosed.after
      else some r.2 := by
  obtain ⟨prev, rest⟩ := c
  cases rest with
  | nil => cases hat
  | cons t ts =>
    unfold read?
    cases hname : Cursor.dottedName? (next ⟨prev, t :: ts⟩) with
    | none => simp
    | some r =>
      obtain ⟨name, k⟩ := r
      obtain ⟨last, hlast⟩ := (Onward.refl.dottedName? hname).exists_prev ⟨t, rfl⟩
      by_cases hparen : k.isPunct 0 '(' = true
      · obtain ⟨o, os, hrest⟩ := List.exists_cons_of_ne_nil (rest_ne_nil_of_isPunct hparen)
        cases he : k.enclosed? '(' ')' <;> simp [hparen, hrest, he]
      · simp [hparen, hlast]

theorem level_read? (h : Abreast need c c') (hat : c.isPunct 0 '@' = true) :
    Option.Rel (Level need) ((read? source c).map Prod.snd) ((read? source' c').map Prod.snd) := by
  have hname := (h.abreast_next (by decide) hat).dottedName?
  rw [place_read? hat, place_read? ((h.isPunct_eq '@').trans hat)]
  generalize c.next.dottedName? = x at hname ⊢
  generalize c'.next.dottedName? = x' at hname ⊢
  cases hname with
  | none => exact .none
  | @some r r' hr =>
    simp only [Option.bind_some, hr.2.isPunct (show '(' ≠ '@' by decide)]
    split_ifs
    · exact rel_map (hr.2.enclosed? '(' ')' (by decide)) fun e e' he => he
    · exact .some hr.2

/-- decorators are read again, as far as the first new comment -/
theorem readAll?_cases (h : Level need c c') (hon : c₀.Onward c) (source source' : List Char) :
    Option.Rel (Level need) ((readAll? source c).map Prod.snd) ((readAll? source' c').map Prod.snd) ∨
      ∃ r', readAll? source' c' = some r' ∧ Halts need c₀ r'.2 := by
  induction hn : c.ahead using Nat.strongRecOn generalizing c c' with
  | ind n ih =>
    rw [readAll?_eq source c, readAll?_eq source' c']
    rcases h.cases with hat | hhalted
    · rw [hat.isPunct_eq]
      split_ifs with hmark
      · rcases rel_snd_cases (level_read? hat hmark) with ⟨hold, hnew⟩ | ⟨r, r', hold, hnew, hlevel⟩
        · rw [hold, hnew]
          exact Or.inl .none
        · rw [hold, hnew, Option.bind_some, Option.bind_some]
          have hahead := ahead_read?_lt hold
          rw [hn] at hahead
          rcases ih _ hahead hlevel (onward_read? hon hold) rfl with hrest | ⟨s', hs', hhalts⟩
          · rw [Option.map_map, Option.map_map]
            exact Or.inl hrest
          · rw [hs']
            exact Or.inr ⟨_, rfl, hhalts⟩
      · exact Or.inl (.some h)
    · rw [hhalted.isPunct_new]
      exact Or.inr ⟨_, rfl, c, hon, hhalted⟩

end Decorator

/-! ## Modifiers and kinds -/

namespace Declaration

theorem Modifiers.add?_congr {m : Modifiers} (hword : c'.ident? 0 = c.ident? 0)
    (henum : c.ident? 0 = some "const" → c'.isIdent 1 "enum" = c.isIdent 1 "enum") : m.add? c' = m.add? c := by
  unfold Modifiers.add?
  rw [hword]
  split
  case h_6 hconst => rw [henum hconst]
  all_goals rfl

/-- modifiers are the same as far as the first new comment, which may also part a `const` from its `enum` -/
theorem Modifiers.read_cases (h : Level need c c') (hon : c₀.Onward c) (m : Modifiers) :
    (Modifiers.read m c').1 = (Modifiers.read m c).1 ∧ Abreast need (Modifiers.read m c).2 (Modifiers.read m c').2 ∨
      Halts need c₀ (Modifiers.read m c').2 ∨
      (Modifiers.read m c').2.ident? 0 = some "const" ∧ Halts need c₀ (Modifiers.read m c').2.next := by
  induction hn : c.ahead using Nat.strongRecOn generalizing c c' m with
  | ind n ih =>
    have same : m.add? c' = m.add? c → Abreast need c c' →
        (Modifiers.read m c').1 = (Modifiers.read m c).1 ∧ Abreast need (Modifiers.read m c).2 (Modifiers.read m c').2 ∨
          Halts need c₀ (Modifiers.read m c').2 ∨
          (Modifiers.read m c').2.ident? 0 = some "const" ∧ Halts need c₀ (Modifiers.read m c').2.next := by
      intro hadd habreast
      cases hm : m.add? c with
      | none =>
        rw [read_of_none hm, read_of_none (hadd.trans hm)]
        exact Or.inl ⟨rfl, habreast⟩
      | some m' =>
        have hahead := ahead_skip_one_lt c (rest_ne_nil_of_add? hm)
        rw [hn] at hahead
        rw [read_of_some hm, read_of_some (hadd.trans hm)]
        exact ih _ hahead habreast.next hon.next m' rfl
    rcases h.cases with hword | hhalted
    · rcases hword.next.cases with hnext | hhalted
      · exact same
          (add?_congr hword.ident?_eq fun _ => by rw [isIdent_add_one, isIdent_add_one, hnext.isIdent_eq]) hword
      · by_cases hconst : c.ident? 0 = some "const"
        · have hnone : m.add? c' = none := by
            rw [← hword.ident?_eq] at hconst
            simp [add?, hconst, isIdent_add_one, hhalted.isIdent_new]
          rw [read_of_none hnone]
          exact Or.inr (Or.inr ⟨hword.ident?_eq.trans hconst, c.next, hon.next, hhalted⟩)
        · exact same (add?_congr hword.ident?_eq fun hc => absurd hc hconst) hword
    · have hnone : m.add? c' = none := by simp [add?, hhalted.ident?_new]
      rw [read_of_none hnone]
      exact Or.inr (Or.inl ⟨c, hon, hhalted⟩)

/-- a declaration has a body if it is of a kind that has one and a brace ahead is closed -/
theorem readBody_eq_none_iff (kind : DeclKind) (c : Cursor) : (readBody kind c).1 = none ↔
    (kind == .classDecl || kind == .interfaceDecl || kind == .enumDecl) = false ∨ c.enclosed? '{' '}' = none := by
  unfold readBody
  dsimp only
  cases hbraced : (kind == .classDecl || kind == .interfaceDecl || kind == .enumDecl) with
  | false => simp
  | true =>
    cases he : c.enclosed? '{' '}' with
    | none => simp
    | some e =>
      obtain ⟨prev, rest⟩ := c
      cases rest with
      | nil => cases he
      | cons t ts => simp

theorem readBody_eq_none (kind : DeclKind) (h : Level need c c') (hnone : (readBody kind c).1 = none) :
    (readBody kind c').1 = none := by
  rw [readBody_eq_none_iff] at hnone ⊢
  refine hnone.imp id fun hopen => ?_
  have he := h.enclosed? '{' '}' (by decide)
  rw [hopen] at he
  generalize c'.enclosed? '{' '}' = x' at he ⊢
  cases he
  rfl

/-- the name is the same; or the new reader finds none at a new comment; or what was taken for the name was the start of
a declaration -/
theorem readName?_reread (kind : DeclKind) (isDefault : Bool) (h : Level need c c') (hon : c₀.next.Onward c) :
    Option.Rel (Level need) ((readName? kind isDefault c).map Prod.snd) ((readName? kind isDefault c').map Prod.snd) ∨
      (readName? kind isDefault c' = none ∧ Halts need c₀ c') ∨
      (kind ≠ .typeAlias ∧ ∃ r, readName? kind isDefault c = some r ∧ Oversteps need c₀ r.2) := by
  rcases h.cases with hword | hhalted
  · refine Or.inl ?_
    unfold readName?
    rw [hword.ident?_eq]
    cases c.ident? 0 with
    | none => dsimp only; split_ifs; exacts [.some h, .none]
    | some word => dsimp only; split_ifs; exacts [.some h, .none, .some hword.next]
  · unfold readName?
    rw [hhalted.ident?_new]
    by_cases hunnamed : (isDefault && (kind == .classDecl || kind == .functionDecl)) = true
    · simp only [if_pos hunnamed]
      cases hfound : c.ident? 0 with
      | none => exact Or.inl (.some h)
      | some word =>
        have hfree : (kind == .classDecl && (word == "extends" || word == "implements")) = false := by
          have hextends := hhalted.isIdent_old (w := "extends") (by decide)
          have himplements := hhalted.isIdent_old (w := "implements") (by decide)
          rw [isIdent, hfound] at hextends himplements
          simp_all
        have hkind : kind ≠ .typeAlias := by
          rintro rfl
          simp at hunnamed
        simp only [hfree]
        exact Or.inr (Or.inr ⟨hkind, _, rfl, hhalted.oversteps hon .refl⟩)
    · simp only [if_neg hunnamed, true_and]
      exact Or.inr (Or.inl ⟨c, hon.of_next, hhalted⟩)

end Declaration

/-! ## Declarations -/

/-- a declaration and what it is in a row with more comments -/
structure Retold (need : Nat → Option (List String)) (d d' : Declaration) : Prop where
  kind : d'.kind = d.kind
  exported : d'.exported = d.exported
  ambient : d'.ambient = d.ambient
  heritage : d'.heritage = d.heritage
  body : d.body = none → d'.body = none
  tags : ∀ tag, d.hasTag tag = true → d'.hasTag tag = true
  needs : ∀ tag ∈ (need d.start).getD [], d'.hasTag tag = true

theorem Declaration.hasTag_iff {d : Declaration} {p : Option Token} (h : d.doc = p.bind docOf?) (tag : String) :
    d.hasTag tag = true ↔ tag ∈ tagsBehind p := by
  rw [Declaration.hasTag, tagsBehind, h]
  cases p.bind docOf? with
  | none => simp
  | some doc => simp [DocComment.hasTag]

/-- two rows at the first token of a statement -/
structure Heads (need : Nat → Option (List String)) (l : Int) (start start' : Cursor) (t t' : Token) : Prop where
  level : LevelBy need l start start'
  head : start.rest.head? = some t
  head' : start'.rest.head? = some t'
  kind : t'.kind = t.kind
  line : (t'.line : Int) = t.line + l
  kept : tagsBehind start.prev ⊆ tagsBehind start'.prev
  needed : (need t.start).getD [] ⊆ tagsBehind start'.prev
  next : LevelBy need l start.next start'.next

theorem Heads.ident?_zero {l : Int} {start start' : Cursor} {t t' : Token} (hs : Heads need l start start' t t')
    {w : String} (hword : t.kind = .ident w) : start'.ident? 0 = some w := by
  rw [ident?, ← List.head?_eq_getElem?, hs.head', Option.bind_some, Token.ident?, hs.kind, hword]

/-- the modifiers behind `export` -/
theorem Heads.read_export {l : Int} {start start' : Cursor} {t t' : Token} (hs : Heads need l start start' t t')
    (hword : t.kind = .ident "export") :
    Declaration.Modifiers.read {} start' = Declaration.Modifiers.read { exported := true } start'.next :=
  Declaration.Modifiers.read_of_some (by simp [Declaration.Modifiers.add?, hs.ident?_zero hword])

namespace ModuleSummary

/-- how two readings of a statement end that started level, the old one at `c₀` -/
inductive Reread (need : Nat → Option (List String)) (c₀ : Cursor) :
    Option Item × Cursor → Option Item × Cursor → Prop where
  | level {i i' : Option Item} {k k' : Cursor}
      (hd : ∀ d' ∈ i'.bind Item.declared?, ∃ d ∈ i.bind Item.declared?, Retold need d d') (h : Level need k k') :
    Reread need c₀ (i, k) (i', k')
  | halts {r : Option Item × Cursor} {i' : Option Item} {k' : Cursor} (hd : i'.bind Item.declared? = none)
      (h : Halts need c₀ k') :
      Reread need c₀ r (i', k')
  | oversteps {i : Option Item} {k : Cursor} {r' : Option Item × Cursor} (h : Oversteps need c₀ k) :
    Reread need c₀ (i, k) r'

theorem Reread.nothing {k k' : Cursor} {i : Option Item} (h : Level need k k') :
    Reread need c₀ (i, k) (none, k') := .level (by simp) h

end ModuleSummary

open ModuleSummary (Reread itemOf)

theorem Declaration.readHeritage_reread (kind : DeclKind) (h : Level need c c') (hon : c₀.next.Onward c) :
    (readHeritage kind c').1 = (readHeritage kind c).1 ∧ Level need (readHeritage kind c).2 (readHeritage kind c').2 ∨
      Oversteps need c₀ (readHeritage kind c).2 := by
  unfold readHeritage
  split_ifs
  · exact Heritage.read_cases h hon {}
  · exact Or.inl ⟨rfl, h⟩

/-- **The rest of a declaration,** behind the word for its kind. -/
theorem Declaration.reread_readRest {l : Int} {start start' : Cursor} {t t' : Token}
    (hs : Heads need l start start' t t') (h : Level need c c') (hon : start.next.Onward c) (kind : DeclKind)
    (mods : Modifiers) (decorators decorators' : List Decorator) :
    Reread need start (itemOf start (readRest kind mods decorators start t c))
      (itemOf start' (readRest kind mods decorators' start' t' c')) := by
  have hstar : Level need (if kind == .functionDecl && c.isPunct 0 '*' then c.next else c)
      (if kind == .functionDecl && c'.isPunct 0 '*' then c'.next else c') ∧
        start.next.Onward (if kind == .functionDecl && c.isPunct 0 '*' then c.next else c) := by
    rw [h.isPunct (by decide)]
    split_ifs with hpunct
    · exact ⟨(h.abreast_of_isPunct (by decide) (Bool.and_eq_true_iff.1 hpunct).2).next, hon.next⟩
    · exact ⟨h, hon⟩
  unfold readRest
  dsimp only
  generalize (if kind == .functionDecl && c.isPunct 0 '*' then c.next else c) = k at hstar ⊢
  generalize (if kind == .functionDecl && c'.isPunct 0 '*' then c'.next else c') = k' at hstar ⊢
  obtain ⟨hk, hon⟩ := hstar
  rcases readName?_reread kind mods.isDefault hk hon with hname | ⟨hnone, hhalts⟩ | ⟨hkind, ⟨name, after⟩, hname, hover⟩
  · rcases rel_snd_cases hname with ⟨hold, hnew⟩ | ⟨⟨name, after⟩, ⟨name', after'⟩, hold, hnew, hafter⟩
    · rw [hold, hnew]
      exact .nothing hk
    · have hafter : Level need after after' := hafter
      simp only [hold, hnew, hafter.isPunct (show '=' ≠ '@' by decide), hafter.isPunct (show '<' ≠ '@' by decide)]
      split_ifs
      · exact .nothing ⟨l, hs.next⟩
      · have hbehind := (onward_readName? hon hold).skipTypeArguments
        rcases readHeritage_reread kind hafter.skipTypeArguments hbehind with ⟨hheritage, hend⟩ | hover
        · refine .level (fun d' hd' => ?_) hend
          cases hd'
          refine ⟨_, rfl, rfl, rfl, rfl, hheritage, readBody_eq_none kind hend, fun tag htag => ?_, fun tag htag => ?_⟩
          · rw [hasTag_iff rfl] at htag ⊢
            exact hs.kept htag
          · rw [hasTag_iff rfl]
            exact hs.needed htag
        · exact .oversteps hover
  · simp only [hnone]
    exact .halts rfl hhalts
  · have hno : (kind == .typeAlias) = false := by simpa using hkind
    simp only [hname, hno, Bool.false_and, Bool.false_eq_true, if_false]
    exact .oversteps (hover.onward (onward_readHeritage kind (Onward.refl.skipTypeArguments)))

namespace Declaration

/-- at a new comment no declaration is found -/
theorem readWords_of_ident?_eq_none {decorators : List Decorator} {start : Cursor} {first : Token}
    (h : c.ident? 0 = none) :
    readWords decorators start first c = some (none, c) := by
  have hread : Modifiers.read {} c = ({}, c) := Modifiers.read_of_none (by simp [Modifiers.add?, h])
  simp [readWords, hread, h]

theorem readRest_variableDecl {mods : Modifiers} {decorators : List Decorator} {start : Cursor} {first : Token}
    (h : c.ident? 0 = none) :
    readRest .variableDecl mods decorators start first c = some (none, c) := by
  simp [readRest, readName?, h]

theorem reread_readWords {l : Int} {start start' : Cursor} {t t' : Token} (hs : Heads need l start start' t t')
    (h : Level need c c') (hon : start.Onward c) (decorators decorators' : List Decorator) :
    Reread need start (itemOf start (readWords decorators start t c))
      (itemOf start' (readWords decorators' start' t' c')) := by
  rcases Modifiers.read_cases h hon {} with ⟨hmods, hword⟩ | hhalts | ⟨hconst, hhalts⟩
  · unfold readWords
    rw [hmods, hword.ident?_eq]
    cases ((Modifiers.read {} c).2.ident? 0).bind kindOf? with
    | none => exact .nothing hword.level
    | some kind => exact reread_readRest hs hword.next (Modifiers.onward_read hon {}).next_next kind _ _ _
  · have hnone : readWords decorators' start' t' c' = some (none, (Modifiers.read {} c').2) := by
      simp [readWords, hhalts.ident?_eq_none]
    rw [hnone]
    exact .halts rfl hhalts
  · have hnone : readWords decorators' start' t' c' = some (none, (Modifiers.read {} c').2.next) := by
      simp [readWords, hconst, kindOf?, readRest_variableDecl hhalts.ident?_eq_none]
    rw [hnone]
    exact .halts rfl hhalts

/-- **A declaration,** with its decorators and modifiers. -/
theorem reread_readDeclaration {l : Int} {start start' : Cursor} {t t' : Token} (hs : Heads need l start start' t t')
    (source source' : List Char) :
    Reread need start (ModuleSummary.readDeclaration source start) (ModuleSummary.readDeclaration source' start') := by
  rw [ModuleSummary.readDeclaration_eq_itemOf, ModuleSummary.readDeclaration_eq_itemOf, read?_eq hs.head,
    read?_eq hs.head']
  rcases Decorator.readAll?_cases ⟨l, hs.level⟩ Onward.refl source source' with hread | ⟨r', hread, hhalts⟩
  · rcases rel_snd_cases hread with ⟨hold, hnew⟩ | ⟨r, r', hold, hnew, hlevel⟩
    · rw [hold, hnew]
      exact .nothing ⟨l, hs.next⟩
    · rw [hold, hnew]
      exact reread_readWords hs hlevel (Decorator.onward_readAll? .refl hold) _ _
  · rw [hread]
    change Reread need start _ (itemOf start' (readWords r'.1 start' t' r'.2))
    rw [readWords_of_ident?_eq_none hhalts.ident?_eq_none]
    exact .halts rfl hhalts

end Declaration

/-! ## Exports -/

namespace ExportDecl

/-- the statement ends in front of what is ahead -/
def endsAt (line : Nat) (c : Cursor) : Bool :=
  (c.rest.head?.map fun t => t.isPunct ';' || decide (line < t.line)).getD true

theorem place_readDefault? (line : Nat) (c : Cursor) : (readDefault? line c).map Prod.snd =
    (if c.isIdent 0 "default" then c.next.ident? 0 else none).bind fun name =>
      if !defaultWords.contains name && endsAt line c.next.next then some c.next.next else none := by
  have hrest : c.rest[2]? = c.next.next.rest.head? := by rw [rest_add_one, rest_add_one, List.head?_eq_getElem?]
  unfold readDefault? endsAt
  rw [ident?_add_one, hrest]
  by_cases hdefault : c.isIdent 0 "default" = true
  · rw [if_pos hdefault, if_pos hdefault]
    cases c.next.ident? 0 with
    | none => rfl
    | some name =>
      cases c.next.next.rest.head? with
      | none => dsimp only [Option.bind_eq_bind, Option.bind_some, Option.map_none, Option.getD_none]; split_ifs <;> rfl
      | some t =>
        dsimp only [Option.bind_eq_bind, Option.bind_some, Option.map_some, Option.getD_some]; split_ifs <;> rfl
  · rw [if_neg hdefault, if_neg hdefault]
    rfl

theorem endsAt_eq {l : Int} (h : LevelBy need l c c') {line line' : Nat} (hline : (line' : Int) = line + l) :
    endsAt line' c' = endsAt line c := by
  have hhead := h.line
  unfold endsAt
  generalize c.rest.head? = x at hhead ⊢
  generalize c'.rest.head? = x' at hhead ⊢
  cases hhead with
  | none => rfl
  | @some t t' ht =>
    have hlt : line' < t'.line ↔ line < t.line := by omega
    simp [ht.2, hlt]

/-- a default name is read again, unless it was a word that opened a declaration with needs -/
theorem readDefault?_cases {l : Int} (h : LevelBy need l c c') {line line' : Nat} (hline : (line' : Int) = line + l) :
    Option.Rel (Level need) ((readDefault? line c).map Prod.snd) ((readDefault? line' c').map Prod.snd) ∨
      c'.isIdent 0 "default" = true ∧ Halted need c.next c'.next := by
  have hlevel : Level need c c' := ⟨l, h⟩
  rw [place_readDefault?, place_readDefault?, hlevel.isIdent (by decide)]
  split_ifs with hdefault
  · have hword := hlevel.abreast_of_isIdent (by decide) hdefault
    rcases hword.next.cases with hname | hhalted
    · refine Or.inl ?_
      cases hfound : c'.next.ident? 0 with
      | none =>
        rw [← hname.ident?_eq, hfound]
        exact .none
      | some name =>
        have hnext := h.next (w := "default") (by simpa [isIdent] using (hword.isIdent_eq _).trans hdefault)
        rw [← hname.ident?_eq, hfound, Option.bind_some, Option.bind_some, endsAt_eq (hnext.next hfound) hline]
        split_ifs
        · exact .some hname.next
        · exact .none
    · exact Or.inr ⟨hdefault, hhalted⟩
  · exact Or.inl .none

end ExportDecl

end

end ClosurePipeline
