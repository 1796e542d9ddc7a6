/-
Readers move a cursor on. Whatever a reader of declarations gives, the place to go on from is the cursor it started at,
some tokens further (`Cursor.Onward`): no token is skipped on the way but those in front of the new place, and the token
just passed is known.
-/
import Mathlib.Tactic
import ClosurePipeline.Proofs.Module.Readers

namespace ClosurePipeline

/-! ## Cursors -/

namespace Cursor

/-- `c` is `c₀` or some tokens further on -/
inductive Onward (c₀ : Cursor) : Cursor → Prop where
  | refl : Onward c₀ c₀
  | pass {prev : Option Token} {t : Token} {rest : List Token} (h : Onward c₀ ⟨prev, t :: rest⟩) :
    Onward c₀ ⟨some t, rest⟩

variable {c₀ c : Cursor}

/-- the tokens ahead were ahead before -/
theorem Onward.subset (h : Onward c₀ c) : c.rest ⊆ c₀.rest := by
  induction h with
  | refl => exact List.Subset.refl _
  | pass h ih => exact fun x hx => ih (List.mem_cons_of_mem _ hx)

theorem Onward.trans {k : Cursor} (h : Onward c₀ c) (h' : Onward c k) : Onward c₀ k := by
  induction h' with
  | refl => exact h
  | pass _ ih => exact ih.pass

theorem Onward.next (h : Onward c₀ c) : Onward c₀ c.next := by
  obtain ⟨prev, rest⟩ := c
  cases rest with
  | nil => exact h
  | cons t rest => exact h.pass

/-- whether a token is passed or not -/
theorem Onward.ite_next (h : Onward c₀ c) (p : Prop) [Decidable p] : Onward c₀ (if p then c.next else c) := by
  split_ifs
  · exact h.next
  · exact h

theorem Onward.passed {t : Token} {rest : List Token} (h : Onward c₀ c) (hrest : c.rest = t :: rest) :
    Onward c₀ ⟨some t, rest⟩ := by
  obtain ⟨prev, ahead⟩ := c
  cases hrest
  exact h.pass

theorem Onward.skip (h : Onward c₀ c) (n : Nat) : Onward c₀ (c.skip n) := by
  induction n generalizing c with
  | zero => exact h
  | succ n ih => exact ih h.next

/-- `depth` brackets are open in front of a token and `d` behind it -/
inductive Nests (opening closer : Char) (t : Token) : Nat → Nat → Prop where
  | opens {depth : Nat} (h : t.isPunct opening = true) : Nests opening closer t depth (depth + 1)
  | closes {depth : Nat} (hopening : ¬ t.isPunct opening = true) (h : t.isPunct closer = true) :
    Nests opening closer t (depth + 1) depth
  | inside {depth : Nat} (hopening : ¬ t.isPunct opening = true) (hcloser : ¬ t.isPunct closer = true) :
    Nests opening closer t depth depth

/-- a token closes a stretch or is one more inside it -/
theorem closing_cons {opening closer : Char} {t : Token} {rest : List Token} {depth : Nat} {e : Enclosed}
    (h : closing opening closer depth (t :: rest) = some e) :
    (depth = 0 ∧ ¬ t.isPunct opening = true ∧ t.isPunct closer = true ∧ e = ⟨[], t, ⟨some t, rest⟩⟩) ∨
      ∃ d e', Nests opening closer t depth d ∧ closing opening closer d rest = some e' ∧
        e = { e' with inner := t :: e'.inner } := by
  simp only [closing] at h
  split_ifs at h with hopening hcloser
  · obtain ⟨e', he', rfl⟩ := Option.map_eq_some_iff.1 h
    exact Or.inr ⟨_, e', .opens hopening, he', rfl⟩
  · split at h
    · cases h
      exact Or.inl ⟨rfl, hopening, hcloser, rfl⟩
    · obtain ⟨e', he', rfl⟩ := Option.map_eq_some_iff.1 h
      exact Or.inr ⟨_, e', .closes hopening hcloser, he', rfl⟩
  · obtain ⟨e', he', rfl⟩ := Option.map_eq_some_iff.1 h
    exact Or.inr ⟨_, e', .inside hopening hcloser, he', rfl⟩

theorem onward_closing {opening closer : Char} {rest : List Token} :
    ∀ {depth : Nat} {prev : Option Token} {e : Enclosed},
    closing opening closer depth rest = some e → Onward c₀ ⟨prev, rest⟩ → e.inner ⊆ rest ∧ Onward c₀ e.after := by
  induction rest with
  | nil => intro depth prev e h; cases h
  | cons t rest ih =>
    intro depth prev e h hon
    rcases closing_cons h with ⟨-, -, -, rfl⟩ | ⟨d, e', -, he', rfl⟩
    · exact ⟨List.nil_subset _, hon.pass⟩
    · obtain ⟨hinner, hafter⟩ := ih he' hon.pass
      exact ⟨List.cons_subset_cons t hinner, hafter⟩

theorem Onward.enclosed? (h : Onward c₀ c) {opening closer : Char} {e : Enclosed}
    (he : c.enclosed? opening closer = some e) :
    e.inner ⊆ c₀.rest ∧ Onward c₀ e.after := by
  obtain ⟨prev, rest⟩ := c
  cases rest with
  | nil => cases he
  | cons t rest =>
    simp only [Cursor.enclosed?] at he
    split_ifs at he
    obtain ⟨hinner, hafter⟩ := onward_closing he h.pass
    exact ⟨fun x hx => h.pass.subset (hinner hx), hafter⟩

theorem onward_anglesFrom (rest : List Token) : ∀ {prev : Option Token} (depth : Nat), Onward c₀ ⟨prev, rest⟩ →
    Onward c₀ (anglesFrom prev depth rest).2 := by
  induction rest with
  | nil => intro prev depth h; exact h
  | cons t rest ih =>
    intro prev depth h
    rw [anglesFrom]
    split_ifs
    · exact ih _ h.pass
    · exact h.pass
    · exact ih _ h.pass
    · exact ih _ h.pass

theorem Onward.skipTypeArguments (h : Onward c₀ c) : Onward c₀ c.skipTypeArguments := by
  unfold Cursor.skipTypeArguments typeArguments
  split_ifs
  · exact onward_anglesFrom _ _ h
  · exact h

theorem onward_dottedParts (prev : Option Token) (rest : List Token) :
    Onward c₀ ⟨prev, rest⟩ → Onward c₀ (dottedParts prev rest).2 := by
  fun_induction dottedParts prev rest with
  | case1 prev dot part rest hdot s hs parts c hrec ih =>
    rw [hrec] at ih
    exact fun h => ih h.pass.pass
  | case2 => exact id
  | case3 => exact id
  | case4 => exact id

theorem onward_next_dottedName? {name : String} {c' : Cursor} (h : c.dottedName? = some (name, c')) :
    Onward c.next c' := by
  obtain ⟨t, ts, word, hrest, -, -, rfl⟩ := exists_first_of_dottedName? h
  rw [next_of_rest hrest]
  exact onward_dottedParts _ _ .refl

theorem Onward.dottedName? (h : Onward c₀ c) {s : String} {c' : Cursor} (hd : c.dottedName? = some (s, c')) :
    Onward c₀ c' :=
  h.next.trans (onward_next_dottedName? hd)

end Cursor

/-! ## Declarations -/

section

open Cursor

variable {c₀ c : Cursor}

theorem Decorator.onward_read? {source : List Char} (h : Onward c₀ c) {d : Decorator} {c' : Cursor}
    (hr : Decorator.read? source c = some (d, c')) :
    Onward c₀ c' := by
  obtain ⟨first, -, hr⟩ := Option.bind_eq_some_iff.1 hr
  obtain ⟨⟨name, after⟩, hname, hr⟩ := Option.bind_eq_some_iff.1 hr
  have hafter := h.next.dottedName? hname
  simp only at hr
  split_ifs at hr
  · obtain ⟨opening, -, hr⟩ := Option.bind_eq_some_iff.1 hr
    obtain ⟨e, he, hr⟩ := Option.bind_eq_some_iff.1 hr
    cases hr
    exact (hafter.enclosed? he).2
  · obtain ⟨last, -, hr⟩ := Option.bind_eq_some_iff.1 hr
    cases hr
    exact hafter

theorem Decorator.onward_readAll? {source : List Char} (h : Onward c₀ c) : ∀ {ds : List Decorator} {c' : Cursor},
    Decorator.readAll? source c = some (ds, c') → Onward c₀ c' := by
  fun_induction Decorator.readAll? source c with
  | case1 c hat hr => intro ds c' h'; cases h'
  | case2 c hat d c1 hr ih =>
    intro ds c' h'
    obtain ⟨⟨ds', c2⟩, hrest, e⟩ := Option.map_eq_some_iff.1 h'
    cases e
    exact ih (Decorator.onward_read? h hr) hrest
  | case3 c hat => intro ds c' h'; cases h'; exact h

theorem Heritage.onward_readTypes (h : Onward c₀ c) : Onward c₀ (Heritage.readTypes c).2 := by
  fun_induction Heritage.readTypes c with
  | case1 => exact h
  | case2 c name c1 hd hp h2 => exact (h.dottedName? hd).skipTypeArguments
  | case3 c name c1 hd hp e he hc names c3 hr ih =>
    rw [hr] at ih
    exact ih ((h.dottedName? hd).skipTypeArguments.enclosed? he).2.next
  | case4 c name c1 hd hp e he hc => exact ((h.dottedName? hd).skipTypeArguments.enclosed? he).2
  | case5 c name c1 hd hp hc names c3 hr ih =>
    rw [hr] at ih
    exact ih (h.dottedName? hd).skipTypeArguments.next
  | case6 c name c1 hd hp hc => exact (h.dottedName? hd).skipTypeArguments

theorem Heritage.onward_read (h : Onward c₀ c) (x : Heritage) : Onward c₀ (Heritage.read x c).2 := by
  fun_induction Heritage.read x c with
  | case1 x c he ih => exact ih (onward_readTypes h.next)
  | case2 x c he hi ih => exact ih (onward_readTypes h.next)
  | case3 => exact h

theorem Declaration.Modifiers.onward_read (h : Onward c₀ c) (m : Declaration.Modifiers) :
    Onward c₀ (Modifiers.read m c).2 := by
  fun_induction Modifiers.read m c with
  | case1 m c m' hm ih => exact ih h.next
  | case2 => exact h

theorem Declaration.onward_readName? (h : Onward c₀ c) {kind : DeclKind} {isDefault : Bool} {name : String}
    {c' : Cursor} (hr : readName? kind isDefault c = some (name, c')) : Onward c₀ c' := by
  have unnamed : ∀ {b : Bool}, (if b then some ("default", c) else none) = some (name, c') → Onward c₀ c' := by
    intro b hb
    split_ifs at hb
    cases hb
    exact h
  unfold readName? at hr
  simp only at hr
  split at hr
  · split_ifs at hr
    · cases hr; exact h
    · cases hr; exact h.next
  · exact unnamed hr

theorem Declaration.onward_readHeritage (kind : DeclKind) (h : Onward c₀ c) : Onward c₀ (readHeritage kind c).2 := by
  unfold readHeritage
  split_ifs
  · exact Heritage.onward_read h {}
  · exact h

theorem Declaration.onward_readRest (h : Onward c₀ c) {kind : DeclKind} {mods : Modifiers} {decorators : List Decorator}
    {start : Cursor} {first : Token} {d : Option Declaration} {c' : Cursor}
    (hr : readRest kind mods decorators start first c = some (d, c')) : Onward c₀ c' := by
  have hstar : Onward c₀ (if kind == .functionDecl && c.isPunct 0 '*' then c.next else c) := h.ite_next _
  unfold readRest at hr
  simp only at hr
  split at hr
  · cases hr
    exact hstar
  · rename_i name c1 hname
    have hc1 := onward_readName? hstar hname
    split_ifs at hr
    cases hr
    exact onward_readHeritage kind hc1.skipTypeArguments

theorem Declaration.onward_readWords {decorators : List Decorator} {start : Cursor} {first : Token}
    {r : Option Declaration × Cursor} (hr : readWords decorators start first c = some r) :
    Onward (Modifiers.read {} c).2 r.2 := by
  unfold readWords at hr
  split at hr
  · cases hr
    exact .refl
  · exact onward_readRest (Onward.refl.next) hr

theorem Declaration.onward_read? {source : List Char} (h : Onward c₀ c) {d : Option Declaration} {c' : Cursor}
    (hr : Declaration.read? source c = some (d, c')) : Onward c₀ c' := by
  obtain ⟨_, _, _, -, hall, hwords⟩ := exists_words_of_read? hr
  exact (Modifiers.onward_read (Decorator.onward_readAll? h hall) {}).trans (onward_readWords hwords)

end

end ClosurePipeline
