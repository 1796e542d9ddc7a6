/-
Where the names of a summary come from. Readers move a cursor over the tokens of a text and never leave them, so every
name that an import or export takes from another module is the text of a token (`ModuleSummary.namesWithin_ofText`). A
text has no more names than characters, even if each name with a dot counts a second time for what stands behind the dot
(`length_textForms_le`).
-/
import Mathlib.Tactic
import Mathlib.Data.List.TakeWhile
import ClosurePipeline.Program.Symbol
import ClosurePipeline.Proofs.Module.Onward
import ClosurePipeline.Proofs.Token.Rules

namespace ClosurePipeline

/-! ## Imports and exports -/

section

open Cursor

variable {c₀ c : Cursor}

/-- a token has this name -/
def Named (ts : List Token) (s : String) : Prop := ∃ t ∈ ts, t.name? = some s

theorem Token.name?_of_ident? {t : Token} {s : String} (h : t.ident? = some s) : t.name? = some s := by
  rw [Token.name?, h, Option.some_or]

theorem Cursor.Onward.named_of_ident? (h : Onward c₀ c) {k : Nat} {s : String} (hi : c.ident? k = some s) :
    Named c₀.rest s := by
  obtain ⟨t, ht, hs⟩ := Option.bind_eq_some_iff.1 hi
  exact ⟨t, h.subset (List.mem_of_getElem? ht), Token.name?_of_ident? hs⟩

namespace NamedElement

theorem skipType_subset (t : Token) (rest : List Token) :
    (skipType t rest).1 ∈ t :: rest ∧ (skipType t rest).2 ⊆ rest := by
  unfold skipType
  split
  · split_ifs
    · exact ⟨List.mem_cons_of_mem _ List.mem_cons_self, List.subset_cons_self _ _⟩
    · exact ⟨List.mem_cons_self, List.Subset.refl _⟩
  · exact ⟨List.mem_cons_self, List.Subset.refl _⟩

theorem shownAs_subset (name : String) (rest : List Token) : (shownAs name rest).2 ⊆ rest := by
  unfold shownAs
  split
  · split
    · exact fun x hx => List.mem_cons_of_mem _ (List.mem_cons_of_mem _ hx)
    · exact List.Subset.refl _
  · exact List.Subset.refl _

theorem behindComma_subset (rest : List Token) : behindComma rest ⊆ rest := by
  induction rest with
  | nil => exact List.Subset.refl _
  | cons t rest ih =>
    rw [behindComma]
    split_ifs
    · exact List.subset_cons_self _ _
    · exact fun x hx => List.mem_cons_of_mem t (ih hx)

/-- the elements of a clause have names of its tokens -/
theorem named_of_mem_list (rest : List Token) : ∀ e ∈ NamedElement.list rest, Named rest e.name := by
  fun_induction NamedElement.list rest with
  | case1 => intro e he; cases he
  | case2 t rest head hnone ih =>
    intro e he
    obtain ⟨u, hu, hname⟩ := ih e he
    exact ⟨u, List.mem_cons_of_mem t ((skipType_subset t rest).2 hu), hname⟩
  | case3 t rest head name hname shown ih =>
    intro e he
    rcases List.mem_cons.1 he with rfl | he
    · exact ⟨head.1, (skipType_subset t rest).1, hname⟩
    · obtain ⟨u, hu, hu'⟩ := ih e he
      have hmem := (skipType_subset t rest).2 (shownAs_subset name _ (behindComma_subset _ hu))
      exact ⟨u, List.mem_cons_of_mem t hmem, hu'⟩

theorem named_of_mem_list_of_subset {ts rest : List Token} (h : rest ⊆ ts) {e : NamedElement}
    (he : e ∈ NamedElement.list rest) : Named ts e.name := by
  obtain ⟨t, ht, hname⟩ := named_of_mem_list rest e he
  exact ⟨t, h ht, hname⟩

end NamedElement

/-- a name that an import takes from its module: all of it, its default, or a name written there -/
def TakesName (ts : List Token) (kind : ImportKind) (sourceName : String) : Prop :=
  kind = .wildcard ∨ sourceName = "default" ∨ Named ts sourceName

/-- an item whose names are those of tokens -/
def ModuleSummary.Item.Within (ts : List Token) : ModuleSummary.Item → Prop
  | .importing d => ∀ b ∈ d.bindings, TakesName ts b.kind b.sourceName
  | .exporting d => ∀ bs, d.clause = .named bs → ∀ b ∈ bs, Named ts b.sourceName
  | .declaring _ => True
  | .assigning _ => True

/-- what an import's reader gives: a place inside, and bindings with names of tokens -/
def ImportDecl.ReadWithin (c₀ : Cursor) (r : Option ImportDecl × Cursor) : Prop :=
  Onward c₀ r.2 ∧ ∀ d ∈ r.1, ∀ b ∈ d.bindings, TakesName c₀.rest b.kind b.sourceName

namespace ImportDecl

theorem readWithin_none (h : Onward c₀ c) : ReadWithin c₀ (none, c) := ⟨h, by simp⟩

theorem within_readRequire (h : Onward c₀ c) (name : String) (line : Nat) :
    ReadWithin c₀ (readRequire name line c) := by
  unfold readRequire
  split_ifs
  · split
    · refine ⟨h.skip 5, fun d hd b hb => ?_⟩
      cases hd
      rw [List.mem_singleton.1 hb]
      exact Or.inl rfl
    · exact readWithin_none (h.skip 2)
  · exact readWithin_none (h.skip 2)

theorem within_readSource (h : Onward c₀ c) {line : Nat} {pending : List Pending}
    (hp : ∀ p ∈ pending, TakesName c₀.rest p.kind p.sourceName) {r : Option ImportDecl × Cursor}
    (hr : readSource line pending c = some r) : ReadWithin c₀ r := by
  unfold readSource at hr
  split_ifs at hr
  · obtain ⟨specifier, -, hr⟩ := Option.bind_eq_some_iff.1 hr
    cases hr
    refine ⟨h.skip 2, fun d hd b hb => ?_⟩
    cases hd
    obtain ⟨p, hpm, rfl⟩ := List.mem_map.1 hb
    exact hp p hpm
  · cases hr
    exact readWithin_none h

theorem within_readBindings (h : Onward c₀ c) {line : Nat} {pending : List Pending}
    (hp : ∀ p ∈ pending, TakesName c₀.rest p.kind p.sourceName) {r : Option ImportDecl × Cursor}
    (hr : readBindings line pending c = some r) : ReadWithin c₀ r := by
  unfold readBindings at hr
  split_ifs at hr
  · obtain ⟨name, -, hr⟩ := Option.bind_eq_some_iff.1 hr
    refine within_readSource (h.skip 3) (fun p hpm => ?_) hr
    rcases List.mem_append.1 hpm with hpm | hpm
    · exact hp p hpm
    · rw [List.mem_singleton.1 hpm]
      exact Or.inl rfl
  · cases hr
    exact readWithin_none h.next
  · obtain ⟨e, he, hr⟩ := Option.bind_eq_some_iff.1 hr
    obtain ⟨hinner, hafter⟩ := h.enclosed? he
    refine within_readSource hafter (fun p hpm => ?_) hr
    rcases List.mem_append.1 hpm with hpm | hpm
    · exact hp p hpm
    · obtain ⟨n, hn, rfl⟩ := List.mem_map.1 hpm
      exact Or.inr (Or.inr (NamedElement.named_of_mem_list_of_subset hinner hn))
  · exact within_readSource h hp hr

theorem within_readClause (h : Onward c₀ c) {line : Nat} {r : Option ImportDecl × Cursor}
    (hr : readClause line c = some r) : ReadWithin c₀ r := by
  unfold readClause at hr
  split at hr
  · split_ifs at hr
    · cases hr
      exact within_readRequire h _ _
    · refine within_readBindings (h.skip 2) (fun p hp => ?_) hr
      rw [List.mem_singleton.1 hp]
      exact Or.inr (Or.inl rfl)
    · refine within_readBindings (h.skip 1) (fun p hp => ?_) hr
      rw [List.mem_singleton.1 hp]
      exact Or.inr (Or.inl rfl)
  · exact within_readBindings h (by simp) hr

theorem within_read (h : Onward c₀ c) (line : Nat) : ReadWithin c₀ (ImportDecl.read line c) := by
  unfold ImportDecl.read
  split_ifs
  · exact readWithin_none h
  · split
    · refine ⟨h.next, fun d hd b hb => ?_⟩
      cases hd
      cases hb
    · have hskip : Onward c₀ (skipType c) := by
        unfold skipType
        split_ifs
        · exact h.next
        · exact h
      cases hc : readClause line (skipType c) with
      | none => exact readWithin_none h
      | some r => exact within_readClause hskip hc

end ImportDecl

namespace ExportDecl

theorem within_readModule (h : Onward c₀ c) {line : Nat} {clause : ExportClause} (hclause : ∀ bs, clause ≠ .named bs)
    {d : Option ExportDecl} {c' : Cursor} (hr : readModule line clause c = some (d, c')) :
    Onward c₀ c' ∧ ∀ x ∈ d, ∀ bs, x.clause ≠ .named bs := by
  unfold readModule at hr
  split_ifs at hr
  · obtain ⟨s, -, hr⟩ := Option.bind_eq_some_iff.1 hr
    cases hr
    refine ⟨h.skip 2, fun x hx => ?_⟩
    cases hx
    exact hclause
  · cases hr
    exact ⟨h, by simp⟩

theorem within_readAll (h : Onward c₀ c) {line : Nat} {d : Option ExportDecl} {c' : Cursor}
    (hr : readAll line c = some (d, c')) :
    Onward c₀ c' ∧ ∀ x ∈ d, ∀ bs, x.clause ≠ .named bs := by
  rw [readAll_eq_bind] at hr
  split_ifs at hr
  · obtain ⟨name, -, hr⟩ := Option.bind_eq_some_iff.1 hr
    exact within_readModule (h.skip 2) (by simp) hr
  · exact within_readModule h (by simp) hr

theorem within_readNamed (h : Onward c₀ c) {line : Nat} {d : Option ExportDecl} {c' : Cursor}
    (hr : readNamed line c = some (d, c')) :
    Onward c₀ c' ∧ ∀ x ∈ d, ∀ bs, x.clause = .named bs → ∀ b ∈ bs, Named c₀.rest b.sourceName := by
  obtain ⟨e, he, hr⟩ := Option.bind_eq_some_iff.1 hr
  obtain ⟨hinner, hafter⟩ := h.enclosed? he
  have hnames : ∀ (specifier : Option String) (x : ExportDecl) (bs : List ExportBinding), x.clause = .named bs →
      x.clause = .named ((NamedElement.list e.inner).map fun n => ⟨n.shown, n.name, specifier⟩) →
      ∀ b ∈ bs, Named c₀.rest b.sourceName := by
    intro specifier x bs h1 h2 b hb
    rw [h1] at h2
    cases h2
    obtain ⟨n, hn, rfl⟩ := List.mem_map.1 hb
    exact NamedElement.named_of_mem_list_of_subset hinner hn
  split_ifs at hr
  · cases hr
    refine ⟨hafter.skip 2, fun x hx bs hbs => ?_⟩
    cases hx
    exact hnames _ _ bs hbs rfl
  · cases hr
    refine ⟨hafter, fun x hx bs hbs => ?_⟩
    cases hx
    exact hnames _ _ bs hbs rfl

theorem within_readDefault? (h : Onward c₀ c) {line : Nat} {d : ExportDecl} {c' : Cursor}
    (hr : readDefault? line c = some (d, c')) :
    Onward c₀ c' ∧ ∀ bs, d.clause = .named bs → ∀ b ∈ bs, Named c₀.rest b.sourceName := by
  unfold readDefault? at hr
  by_cases hword : c.isIdent 0 "default" = true
  · rw [if_pos hword] at hr
    obtain ⟨name, hname, hr⟩ := Option.bind_eq_some_iff.1 hr
    simp only at hr
    split_ifs at hr
    cases hr
    refine ⟨h.skip 2, fun bs hbs b hb => ?_⟩
    cases hbs
    rw [List.mem_singleton.1 hb]
    exact h.named_of_ident? hname
  · rw [if_neg hword] at hr
    cases hr

end ExportDecl

/-! ## Statements -/

namespace ModuleSummary

/-- what a statement's reader gives: a place inside, and an item with names of tokens -/
def ReadWithin (c₀ : Cursor) (r : Option Item × Cursor) : Prop := Onward c₀ r.2 ∧ ∀ i ∈ r.1, i.Within c₀.rest

theorem readWithin_nothing (h : Onward c₀ c) : ReadWithin c₀ (none, c) := ⟨h, by simp⟩

theorem within_readDeclaration (h : Onward c₀ c) (source : List Char) : ReadWithin c₀ (readDeclaration source c) := by
  unfold readDeclaration
  split
  · rename_i d c' hr
    refine ⟨Declaration.onward_read? h hr, fun i hi => ?_⟩
    obtain ⟨x, -, rfl⟩ := Option.map_eq_some_iff.1 hi
    trivial
  · exact readWithin_nothing h.next

theorem within_exportOf (h : Onward c₀ c) {r : Option (Option ExportDecl × Cursor)}
    (hr : ∀ d c', r = some (d, c') → Onward c₀ c' ∧ ∀ x ∈ d, (Item.exporting x).Within c₀.rest) :
    ReadWithin c₀ (exportOf c r) := by
  cases r with
  | none => exact readWithin_nothing h.next
  | some r =>
    obtain ⟨hend, hnames⟩ := hr r.1 r.2 rfl
    refine ⟨hend, fun i hi => ?_⟩
    obtain ⟨x, hx, rfl⟩ := Option.map_eq_some_iff.1 hi
    exact hnames x hx

theorem within_exportRest (h : Onward c₀ c) (source : List Char) (line : Nat) :
    ReadWithin c₀ (exportRest source line c) := by
  unfold exportRest
  split
  · rename_i d c' hr
    obtain ⟨hend, hnames⟩ := ExportDecl.within_readDefault? h.next hr
    refine ⟨hend, fun i hi => ?_⟩
    cases hi
    exact hnames
  · split_ifs
    · exact readWithin_nothing h.next.next
    · exact within_readDeclaration h source

theorem within_readExport (h : Onward c₀ c) (source : List Char) (line : Nat) :
    ReadWithin c₀ (readExport source line c) := by
  rw [readExport_eq]
  split_ifs
  · refine ⟨h.next.next, fun i hi => ?_⟩
    cases hi
    trivial
  · refine within_exportOf h fun d c' hr => ?_
    obtain ⟨hend, hnot⟩ := ExportDecl.within_readAll h.next.next hr
    exact ⟨hend, fun x hx bs hbs => absurd hbs (hnot x hx bs)⟩
  · exact within_exportOf h fun d c' hr => ExportDecl.within_readNamed h.next.next hr
  · exact within_exportOf h fun d c' hr => ExportDecl.within_readNamed h.next hr
  · exact within_exportRest h source line

theorem within_readStatement (h : Onward c₀ c) (source : List Char) (t : Token) :
    ReadWithin c₀ (readStatement source t c) := by
  unfold readStatement
  split
  · split_ifs
    · obtain ⟨h1, h2⟩ := ImportDecl.within_read h.next t.line
      refine ⟨h1, fun i hi => ?_⟩
      obtain ⟨d, hd, rfl⟩ := Option.map_eq_some_iff.1 hi
      exact h2 d hd
    · exact within_readExport h source t.line
    · exact within_readDeclaration h source
    · exact readWithin_nothing h.next
  · split_ifs
    · exact within_readDeclaration h source
    · exact readWithin_nothing h.next
  · exact readWithin_nothing h.next

theorem within_of_mem_itemsFrom (source : List Char) (depth : Nat) (h : Onward c₀ c) :
    ∀ i ∈ itemsFrom source depth c, i.Within c₀.rest := by
  fun_induction itemsFrom source depth c with
  | case1 => intro i hi; cases hi
  | case2 depth c t rest hrest hopen ih => exact ih (h.passed hrest)
  | case3 depth c t rest hrest hopen hclose ih => exact ih (h.passed hrest)
  | case4 depth c t rest hrest hopen hclose hdepth ih => exact ih (h.passed hrest)
  | case5 depth c t rest hrest hopen hclose hdepth read hlt ih =>
    obtain ⟨h1, h2⟩ := within_readStatement h source t
    intro i hi
    rcases List.mem_append.1 hi with hi | hi
    · exact h2 i (Option.mem_toList.1 hi)
    · exact ih h1 i hi
  | case6 depth c t rest hrest hopen hclose hdepth read hlt ih =>
    obtain ⟨h1, h2⟩ := within_readStatement h source t
    intro i hi
    rcases List.mem_append.1 hi with hi | hi
    · exact h2 i (Option.mem_toList.1 hi)
    · exact ih (h.passed hrest) i hi

/-! ## The summary -/

variable {ts : List Token}

/-- a summary whose imports and exports take names of tokens -/
structure NamesWithin (ts : List Token) (m : ModuleSummary) : Prop where
  imports : ∀ d ∈ m.imports, ∀ b ∈ d.bindings, TakesName ts b.kind b.sourceName
  exports : ∀ d ∈ m.exports, ∀ bs, d.clause = .named bs → ∀ b ∈ bs, Named ts b.sourceName

theorem NamesWithin.add {m : ModuleSummary} (h : NamesWithin ts m) {i : Item} (hi : i.Within ts) :
    NamesWithin ts (m.add i) := by
  cases i with
  | importing d =>
    refine ⟨fun x hx => ?_, h.exports⟩
    rcases List.mem_append.1 hx with hx | hx
    · exact h.imports x hx
    · rw [List.mem_singleton.1 hx]
      exact hi
  | exporting d =>
    refine ⟨h.imports, fun x hx => ?_⟩
    rcases List.mem_append.1 hx with hx | hx
    · exact h.exports x hx
    · rw [List.mem_singleton.1 hx]
      exact hi
  | declaring d => exact ⟨h.imports, h.exports⟩
  | assigning l => exact ⟨h.imports, h.exports⟩

theorem NamesWithin.foldl_add (items : List Item) :
    ∀ {m : ModuleSummary}, NamesWithin ts m → (∀ i ∈ items, i.Within ts) →
    NamesWithin ts (items.foldl ModuleSummary.add m) := by
  induction items with
  | nil => intro m h _; exact h
  | cons i items ih =>
    intro m h hi
    exact ih (h.add (hi i List.mem_cons_self)) fun j hj => hi j (List.mem_cons_of_mem _ hj)

/-- **The names a summary takes from other modules are names of its tokens.** -/
theorem namesWithin_ofText (text : String) : NamesWithin (Lexer.tokenize text.toList) (ofText text) := by
  refine NamesWithin.foldl_add _ ⟨by simp, by simp⟩ ?_
  exact within_of_mem_itemsFrom _ _ .refl

end ModuleSummary

end

/-! ## How many names a text has -/

/-- a name, and what stands behind its first dot -/
def nameForms (s : String) : List String := s :: ((Checker.splitDot? s).map Prod.snd).toList

/-- the forms of a token's name -/
def Token.forms (t : Token) : List String := (t.name?.map nameForms).getD []

theorem Checker.splitDot?_eq_none {s : String} (h : '.' ∉ s.toList) : Checker.splitDot? s = none := by
  have hdrop : s.toList.dropWhile (· ≠ '.') = [] := by
    rw [List.dropWhile_eq_nil_iff]
    intro c hc
    simp only [decide_eq_true_eq]
    rintro rfl
    exact h hc
  simp only [Checker.splitDot?, hdrop]

theorem length_nameForms_le (s : String) : (nameForms s).length ≤ 2 := by
  unfold nameForms
  cases Checker.splitDot? s <;> simp

theorem length_nameForms_of_notMem {s : String} (h : '.' ∉ s.toList) : (nameForms s).length = 1 := by
  rw [nameForms, Checker.splitDot?_eq_none h]
  rfl

namespace Lexer

/-- the forms of the name a token kind carries -/
def kindForms (k : TokenKind) : List String := Token.forms ⟨k, 0, 0, 0⟩

theorem forms_eq (t : Token) : t.forms = kindForms t.kind := rfl

theorem length_kindForms_str (cs : List Char) : (kindForms (.str (String.ofList cs))).length ≤ 1 + cs.length := by
  change (nameForms (String.ofList cs)).length ≤ _
  by_cases h : '.' ∈ cs
  · have := length_nameForms_le (String.ofList cs)
    have := List.length_pos_of_mem h
    omega
  · rw [length_nameForms_of_notMem (by simpa using h)]
    omega

theorem length_kindForms_ident {cs : List Char} (h : '.' ∉ cs) : (kindForms (.ident (String.ofList cs))).length = 1 :=
  length_nameForms_of_notMem (by simpa using h)

/-- a lexeme in front of `cs` that has no more forms than characters -/
def Lexeme.Bounded (cs : List Char) (lx : Lexeme) : Prop :=
  ∀ k ∈ lx.kind, (kindForms k).length ≤ 1 + min lx.extra cs.length

theorem bounded_of_nameless {cs : List Char} {lx : Lexeme} (h : ∀ k ∈ lx.kind, kindForms k = []) : lx.Bounded cs := by
  intro k hk
  rw [h k hk]
  exact Nat.zero_le _

theorem bounded_commentLexeme (c : Char) (cs : List Char) : (commentLexeme c cs).Bounded cs := by
  refine bounded_of_nameless fun k hk => ?_
  simp only [commentLexeme] at hk
  split_ifs at hk
  · cases hk
    rfl
  · cases hk

theorem bounded_stringLexeme (quote : Char) (cs : List Char) : (stringLexeme quote cs).Bounded cs := by
  intro k hk
  simp only [stringLexeme] at hk ⊢
  cases hk
  refine (length_kindForms_str _).trans ?_
  simp only [List.length_take]
  split_ifs <;> omega

theorem bounded_identLexeme {c : Char} (hc : isIdentStart c = true) (cs : List Char) :
    (identLexeme c cs).Bounded cs := by
  intro k hk
  simp only [identLexeme] at hk ⊢
  cases hk
  -- no character of a name is a dot
  have hdot : '.' ∉ c :: cs.takeWhile isIdentPart := by
    intro hm
    rcases List.mem_cons.1 hm with rfl | hm
    · exact absurd hc (by decide)
    · exact absurd (List.mem_takeWhile_imp hm) (by decide)
  rw [length_kindForms_ident hdot]
  omega

theorem Lexed.bounded {prev : Option TokenKind} {c : Char} {cs : List Char} {l : Lexeme} (h : Lexed prev c cs l) :
    l.Bounded cs := by
  have hblank : ∀ {n m : Nat}, (⟨n, m, none⟩ : Lexeme).Bounded cs := bounded_of_nameless (by simp)
  have hnameless : ∀ {n m : Nat} {k : TokenKind}, kindForms k = [] → (⟨n, m, some k⟩ : Lexeme).Bounded cs := by
    intro n m k hk
    refine bounded_of_nameless fun x hx => ?_
    cases hx
    exact hk
  cases h with
  | blank => exact hblank
  | lineComment => exact hblank
  | blockComment => exact bounded_commentLexeme c cs
  | regex => exact hnameless rfl
  | string => exact bounded_stringLexeme c cs
  | template => exact hnameless rfl
  | number => exact hnameless rfl
  | name h => exact bounded_identLexeme h cs
  | mark => exact hnameless rfl

theorem length_forms_tokensFrom (prev : Option TokenKind) (offset line : Nat) (cs : List Char) :
    ((tokensFrom prev offset line cs).flatMap Token.forms).length ≤ cs.length := by
  fun_induction tokensFrom prev offset line cs with
  | case1 => exact Nat.le_refl _
  | case2 prev offset line c cs lx stop hnone ih =>
    simp only [List.length_drop, List.length_cons] at ih ⊢
    omega
  | case3 prev offset line c cs lx stop kind hkind ih =>
    have hforms : (kindForms kind).length ≤ 1 + min lx.extra cs.length := (lexed_lexeme prev c cs).bounded kind hkind
    rw [List.flatMap_cons, List.length_append, forms_eq]
    simp only [List.length_drop, List.length_cons] at ih ⊢
    omega

end Lexer

/-- the forms of the names in a text -/
def textForms (text : String) : List String := (Lexer.tokenize text.toList).flatMap Token.forms

/-- **A text has no more names, forms counted, than characters.** -/
theorem length_textForms_le (text : String) : (textForms text).length ≤ text.length := by
  rw [← String.length_toList]
  exact Lexer.length_forms_tokensFrom none 0 0 text.toList

theorem mem_textForms_of_named {text : String} {s : String} (h : Named (Lexer.tokenize text.toList) s) :
    ∀ n ∈ nameForms s, n ∈ textForms text := by
  obtain ⟨t, ht, hname⟩ := h
  intro n hn
  refine List.mem_flatMap.2 ⟨t, ht, ?_⟩
  rw [Token.forms, hname]
  exact hn

end ClosurePipeline
