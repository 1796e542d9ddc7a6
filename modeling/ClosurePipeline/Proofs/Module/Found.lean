/-
How declarations are found. Every declaration of a summary has been read at some place in the tokens, so what holds of
all that is read holds of it.

- `exists_read_of_mem`: the place and the reading, for each declaration of a summary;
- `Declaration.names_of_read?`: an interface is called by a word of the tokens, and a member is named by a token with
  another one behind it.
-/
import Mathlib.Tactic
import ClosurePipeline.Proofs.Module.Laid

namespace ClosurePipeline

open Cursor

namespace ModuleSummary

variable {source : List Char} {c₀ : Cursor} {d : Declaration}

/-- a declaration among the items of statements has been read at a place further on -/
theorem exists_read_of_declared (depth : Nat) (c : Cursor) :
    c₀.Onward c → d ∈ (itemsFrom source depth c).filterMap Item.declared? →
    ∃ k k', c₀.Onward k ∧ Declaration.read? source k = some (some d, k') := by
  -- what the statement declares, and what comes behind it
  have statement : ∀ {c : Cursor} {t : Token} {items : List Item}, c₀.Onward c →
      (d ∈ items.filterMap Item.declared? → ∃ k k', c₀.Onward k ∧ Declaration.read? source k = some (some d, k')) →
      d ∈ ((readStatement source t c).1.toList ++ items).filterMap Item.declared? →
      ∃ k k', c₀.Onward k ∧ Declaration.read? source k = some (some d, k') := by
    intro c t items hon ih hd
    rw [filterMap_declared, List.mem_append, Option.mem_toList] at hd
    rcases hd with hd | hd
    · obtain ⟨-, hstatement⟩ := readStatement_eq hd
      rw [hstatement] at hd
      obtain ⟨c', hread, -⟩ := readDeclaration_eq hd
      exact ⟨c, c', hon, hread⟩
    · exact ih hd
  fun_induction itemsFrom source depth c with
  | case1 => intro _ hd; cases hd
  | case2 depth c t ts hrest hopen ih => exact fun hon => ih (hon.passed hrest)
  | case3 depth c t ts hrest hopen hclose ih => exact fun hon => ih (hon.passed hrest)
  | case4 depth c t ts hrest hopen hclose hdepth ih => exact fun hon => ih (hon.passed hrest)
  | case5 depth c t ts hrest hopen hclose hdepth read hlt ih =>
    exact fun hon => statement hon (ih (within_readStatement hon source t).1)
  | case6 depth c t ts hrest hopen hclose hdepth read hlt ih => exact fun hon => statement hon (ih (hon.passed hrest))

/-- **Every declaration of a summary has been read** at a place of its tokens. -/
theorem exists_read_of_mem {ts : List Token} (hd : d ∈ (ofTokens source ts).declarations) :
    ∃ k k', (Cursor.start ts).Onward k ∧ Declaration.read? source k = some (some d, k') := by
  rw [ofTokens, declarations_foldl_add] at hd
  exact exists_read_of_declared 0 (Cursor.start ts) .refl hd

end ModuleSummary

namespace Declaration

/-! ## Names and members -/

/-- a member of an interface is named by a token with another one behind it -/
theorem mem_membersFrom (ts : List Token) :
    ∀ (prev : Token) (depth : Nat) (found : List String), ∀ m ∈ membersFrom prev depth found ts,
    m ∈ found ∨ ∃ t u, [t, u] <:+: ts ∧ t.name? = some m := by
  induction ts with
  | nil => exact fun prev depth found m hm => Or.inl hm
  | cons t ts ih =>
    have behind : ∀ {m : String}, (∃ v w, [v, w] <:+: ts ∧ v.name? = some m) → ∃ v w, [v, w] <:+: t :: ts ∧
        v.name? = some m := by
      rintro m ⟨v, w, hin, hname⟩
      exact ⟨v, w, hin.trans (List.suffix_cons t ts).isInfix, hname⟩
    -- the only member this token can add is the one it names
    have added : ∀ {prev : Token} {n : String}, member? prev t ts = some n → ∃ v w, [v, w] <:+: t :: ts ∧
        v.name? = some n := by
      intro prev n hn
      unfold member? at hn
      split_ifs at hn with hstarts
      cases ts with
      | nil => simp [declaresMember] at hstarts
      | cons u ts => exact ⟨t, u, (List.prefix_append [t, u] ts).isInfix, hn⟩
    intro prev depth found m hm
    unfold membersFrom at hm
    split_ifs at hm
    · exact (ih _ _ _ m hm).imp_right behind
    · exact (ih _ _ _ m hm).imp_right behind
    · simp only at hm
      cases hmember : member? prev t ts with
      | none =>
        rw [hmember] at hm
        exact (ih _ _ _ m hm).imp_right behind
      | some n =>
        simp only [hmember] at hm
        rcases ih _ _ _ m hm with hfound | hlater
        · split_ifs at hfound
          · exact Or.inl hfound
          · rcases List.mem_append.1 hfound with hfound | hnew
            · exact Or.inl hfound
            · rw [List.mem_singleton] at hnew
              exact Or.inr (added (hnew ▸ hmember))
        · exact Or.inr (behind hlater)
    · exact (ih _ _ _ m hm).imp_right behind

theorem mem_readBody {kind : DeclKind} {c : Cursor} :
    ∀ m ∈ (readBody kind c).2, ∃ t u, [t, u] <:+: c.rest ∧ t.name? = some m := by
  intro m hm
  unfold readBody at hm
  dsimp only at hm
  split at hm
  · rename_i opening e hopening he
    split_ifs at hopening he hm
    · obtain ⟨t, -, hpass, -, -⟩ := passes_enclosed? he
      rcases mem_membersFrom e.inner opening 1 [] m hm with hfound | ⟨v, w, hin, hname⟩
      · cases hfound
      · refine ⟨v, w, hin.trans ⟨[t], e.close :: e.after.rest, ?_⟩, hname⟩
        rw [hpass.rest]
        simp
    · cases hm
  · cases hm

variable {source : List Char} {c₀ c c' : Cursor} {d : Declaration}

/-- an interface is called by a word: only a class or a function may have no name -/
theorem ident?_of_readName? {isDefault : Bool} {name : String}
    (h : readName? .interfaceDecl isDefault c = some (name, c')) : c.ident? 0 = some name := by
  have hunnamed :
      (isDefault && (DeclKind.interfaceDecl == .classDecl || DeclKind.interfaceDecl == .functionDecl)) = false := by
    rw [Bool.and_eq_false_iff]
    exact Or.inr rfl
  unfold readName? at h
  simp only [hunnamed, Bool.false_eq_true, if_false] at h
  split at h
  · rename_i word hword
    split_ifs at h
    cases h
    exact hword
  · cases h

/-- what is read behind the word for the kind: the name is a word, unless it is that of an unnamed default, and the
members stand in the braces ahead -/
theorem of_readRest_names (h : c₀.Onward c) {kind : DeclKind} {mods : Modifiers} {decorators : List Decorator}
    {start : Cursor} {first : Token} (hr : readRest kind mods decorators start first c = some (some d, c')) :
    d.kind = kind ∧ (kind = .interfaceDecl → ∃ t ∈ c₀.rest, t.ident? = some d.name) ∧
      ∀ m ∈ d.members, ∃ t u, [t, u] <:+: c₀.rest ∧ t.name? = some m := by
  have hstar : Onward c₀ (if kind == .functionDecl && c.isPunct 0 '*' then c.next else c) := h.ite_next _
  obtain ⟨name, c₂, hname, rfl, rfl⟩ := exists_name_of_readRest hr
  generalize (if kind == .functionDecl && c.isPunct 0 '*' then c.next else c) = c₁ at hname hstar
  have hc₂ := onward_readName? hstar hname
  refine ⟨rfl, fun hkind => ?_, fun m hm => ?_⟩
  · subst hkind
    obtain ⟨t, ht, hident⟩ := Option.bind_eq_some_iff.1 (ident?_of_readName? hname)
    exact ⟨t, hstar.subset (List.mem_of_getElem? ht), hident⟩
  · obtain ⟨passed, hpassed⟩ := (onward_readHeritage kind hc₂.skipTypeArguments).exists_passes
    obtain ⟨t, u, hin, hmember⟩ := mem_readBody m hm
    exact ⟨t, u, hin.trans (hpassed.rest ▸ (List.suffix_append passed _).isInfix), hmember⟩

/-- what is read at a place: an interface is called by a word ahead, and its members stand ahead -/
theorem names_of_read? (h : c₀.Onward c) (hr : read? source c = some (some d, c')) :
    (d.kind = .interfaceDecl → ∃ t ∈ c₀.rest, t.ident? = some d.name) ∧ ∀ m ∈ d.members, ∃ t u, [t, u] <:+: c₀.rest ∧
      t.name? = some m := by
  obtain ⟨_, _, _, _, -, hall, -, hr⟩ := exists_rest_of_read? hr
  have hmods := Modifiers.onward_read (Decorator.onward_readAll? h hall) {}
  obtain ⟨hkind, hname, hmembers⟩ := of_readRest_names hmods.next hr
  exact ⟨fun hinterface => hname (hkind.symm.trans hinterface), hmembers⟩

end Declaration

end ClosurePipeline
