/-
Where declarations stand. The declarations of a summary follow the tokens of the text: each starts at a token of its
own, later ones at later tokens, and its comment is the token in front.

- `places`: the places between tokens; readers move on through them (`Cursor.Onward.places_suffix`);
- `DeclaredAt`: what a declaration has from the place it starts at;
- `declared_ofTokens`: the declarations of a summary stand at places of its tokens, in order.
-/
import Mathlib.Tactic
import ClosurePipeline.Proofs.Module.Names
import ClosurePipeline.Proofs.Path.Relative

namespace ClosurePipeline

/-! ## Places -/

/-- the places in front of tokens: the token passed, if there is one, and the token ahead -/
def places (prev : Option Token) : List Token → List (Option Token × Token)
  | [] => []
  | t :: ts => (prev, t) :: places (some t) ts

theorem length_places (prev : Option Token) (ts : List Token) : (places prev ts).length = ts.length := by
  induction ts generalizing prev with
  | nil => rfl
  | cons t ts ih => rw [places, List.length_cons, List.length_cons, ih]

theorem Cursor.Onward.places_suffix {c₀ c : Cursor} (h : c₀.Onward c) :
    places c.prev c.rest <:+ places c₀.prev c₀.rest := by
  induction h with
  | refl => exact List.suffix_refl _
  | pass h ih => exact (List.suffix_cons _ _).trans ih

/-- a cursor that has moved on is behind the first token at least -/
theorem Cursor.Onward.places_suffix_of_lt {c₀ c : Cursor} (h : c₀.Onward c) {t : Token} {ts : List Token}
    (hrest : c₀.rest = t :: ts) (hlt : c.ahead < c₀.ahead) : places c.prev c.rest <:+ places (some t) ts := by
  have hsuffix := h.places_suffix
  rw [hrest, places] at hsuffix
  rcases List.suffix_cons_iff.1 hsuffix with heq | hsuffix
  · have hlen := congrArg List.length heq
    rw [length_places, List.length_cons, length_places] at hlen
    simp only [Cursor.ahead, hrest, List.length_cons] at hlt
    omega
  · exact hsuffix

/-- what stands at places of a text stands at places of a longer one -/
theorem sublistForall₂_of_suffix {α β : Type} {R : α → β → Prop} {xs : List α} {ys zs : List β}
    (h : List.SublistForall₂ R xs ys) (hsuffix : ys <:+ zs) : List.SublistForall₂ R xs zs := by
  obtain ⟨ws, hws, hsub⟩ := List.sublistForall₂_iff.1 h
  exact List.sublistForall₂_iff.2 ⟨ws, hws, hsub.trans hsuffix.sublist⟩

/-! ## What a declaration has from its place -/

/-- no name of these tokens has a slash -/
def Slashless (ts : List Token) : Prop := ∀ t ∈ ts, ∀ name, t.ident? = some name → '/' ∉ name.toList

/-- the words a declaration may open with -/
def openingWords : List String := "export" :: ModuleSummary.declarationWords

/-- a declaration may open with this token -/
def Token.OpensDeclaration (t : Token) : Prop := (∃ w ∈ openingWords, t.kind = .ident w) ∨ t.kind = .punct '@'

/-- what a declaration has from the place it starts at: a statement may start there with a word or an at sign, the
comment is the token in front, and no type it builds on has a slash in its name -/
structure DeclaredAt (d : Declaration) (p : Option Token × Token) : Prop where
  starts : ModuleSummary.startsStatement p.1 p.2 = true
  opens : p.2.OpensDeclaration
  start : d.start = p.2.start
  doc : d.doc = p.1.bind Declaration.docOf?
  heritage : ∀ name ∈ d.heritage.extended ++ d.heritage.implemented, '/' ∉ name.toList

section

open Cursor

variable {c₀ c : Cursor}

theorem slash_notMem_dottedParts (prev : Option Token) (ts : List Token) (h : Slashless ts) :
    ∀ part ∈ (dottedParts prev ts).1, '/' ∉ part.toList := by
  fun_induction dottedParts prev ts with
  | case1 prev dot part ts hdot s hs parts c hrec ih =>
    rw [hrec] at ih
    intro name hname
    rcases List.mem_cons.1 hname with rfl | hname
    · exact h part (by simp) _ hs
    · exact ih (fun t ht => h t (by simp [ht])) name hname
  | case2 => intro name hname; cases hname
  | case3 => intro name hname; cases hname
  | case4 => intro name hname; cases hname

theorem slash_notMem_dottedName? (h : Slashless c.rest) {name : String} {c' : Cursor}
    (hd : c.dottedName? = some (name, c')) : '/' ∉ name.toList := by
  obtain ⟨t, ts, word, hrest, hword, rfl, -⟩ := exists_first_of_dottedName? hd
  rw [hrest] at h
  obtain ⟨hfirst, hbehind⟩ := List.forall_mem_cons.1 h
  intro hslash
  rw [String.toList_intercalate] at hslash
  rcases Path.mem_intercalate hslash with hdot | ⟨part, hpart, hin⟩
  · cases hdot
  · obtain ⟨name, hmem, rfl⟩ := List.mem_map.1 hpart
    rcases List.mem_cons.1 hmem with rfl | hmem
    · exact hfirst _ hword hin
    · exact slash_notMem_dottedParts _ _ hbehind name hmem hin

theorem Heritage.slash_notMem_readTypes (hts : Slashless c₀.rest) (h : Onward c₀ c) :
    ∀ name ∈ (readTypes c).1, '/' ∉ name.toList := by
  have hfirst : ∀ {k k' : Cursor} {name : String}, Onward c₀ k → k.dottedName? = some (name, k') → '/' ∉ name.toList :=
    fun hk hd => slash_notMem_dottedName? (fun t ht => hts t (hk.subset ht)) hd
  fun_induction readTypes c with
  | case1 => intro name hname; cases hname
  | case2 c name c1 hd hp h2 => exact List.forall_mem_singleton.2 (hfirst h hd)
  | case3 c name c1 hd hp e he hc names c3 hr ih =>
    rw [hr] at ih
    exact List.forall_mem_cons.2 ⟨hfirst h hd, ih ((h.dottedName? hd).skipTypeArguments.enclosed? he).2.next⟩
  | case4 c name c1 hd hp e he hc => exact List.forall_mem_singleton.2 (hfirst h hd)
  | case5 c name c1 hd hp hc names c3 hr ih =>
    rw [hr] at ih
    exact List.forall_mem_cons.2 ⟨hfirst h hd, ih (h.dottedName? hd).skipTypeArguments.next⟩
  | case6 c name c1 hd hp hc => exact List.forall_mem_singleton.2 (hfirst h hd)

theorem Heritage.slash_notMem_read (hts : Slashless c₀.rest) (h : Onward c₀ c) (x : Heritage)
    (hx : ∀ name ∈ x.extended ++ x.implemented, '/' ∉ name.toList) :
    ∀ name ∈ (Heritage.read x c).1.extended ++ (Heritage.read x c).1.implemented, '/' ∉ name.toList := by
  fun_induction Heritage.read x c with
  | case1 x c he ih =>
    refine ih (onward_readTypes h.next) fun name hname => ?_
    have htypes := slash_notMem_readTypes hts h.next name
    simp only [List.mem_append] at hname hx
    rcases hname with (hname | hname) | hname
    · exact hx name (Or.inl hname)
    · exact htypes hname
    · exact hx name (Or.inr hname)
  | case2 x c he hi ih =>
    refine ih (onward_readTypes h.next) fun name hname => ?_
    have htypes := slash_notMem_readTypes hts h.next name
    simp only [List.mem_append] at hname hx
    rcases hname with hname | hname | hname
    · exact hx name (Or.inl hname)
    · exact hx name (Or.inr hname)
    · exact htypes hname
  | case3 => exact hx

namespace Declaration

theorem of_readRest (hts : Slashless c₀.rest) (h : Onward c₀ c) {kind : DeclKind} {mods : Modifiers}
    {decorators : List Decorator} {start c' : Cursor} {first : Token} {d : Declaration}
    (hr : readRest kind mods decorators start first c = some (some d, c')) :
    d.start = first.start ∧ d.doc = start.prev.bind docOf? ∧ ∀ name ∈ d.heritage.extended ++ d.heritage.implemented,
      '/' ∉ name.toList := by
  have hstar : Onward c₀ (if kind == .functionDecl && c.isPunct 0 '*' then c.next else c) := h.ite_next _
  obtain ⟨name, c₂, hname, rfl, rfl⟩ := exists_name_of_readRest hr
  have hc₂ := onward_readName? hstar hname
  refine ⟨rfl, rfl, ?_⟩
  unfold readHeritage
  split_ifs
  · exact Heritage.slash_notMem_read hts hc₂.skipTypeArguments {} (by simp)
  · simp

theorem of_read? (hts : Slashless c.rest) {source : List Char} {d : Declaration} {c' : Cursor}
    (hr : Declaration.read? source c = some (some d, c')) :
    ∃ first, c.rest.head? = some first ∧ d.start = first.start ∧ d.doc = c.prev.bind docOf? ∧
      ∀ name ∈ d.heritage.extended ++ d.heritage.implemented, '/' ∉ name.toList := by
  obtain ⟨first, _, _, _, hfirst, hall, -, hr⟩ := exists_rest_of_read? hr
  have hmods := Modifiers.onward_read (Decorator.onward_readAll? .refl hall) {}
  exact ⟨first, hfirst, of_readRest hts hmods.next hr⟩

end Declaration

end

/-! ## Statements -/

namespace ModuleSummary

/-- the declaration an item is, if it is one -/
def Item.declared? : Item → Option Declaration
  | .declaring d => some d
  | _ => none

section

variable {c : Cursor} {t : Token} {ts : List Token} {source : List Char}

/-- a declaration that is found has been read -/
theorem readDeclaration_eq {d : Declaration} (h : (readDeclaration source c).1.bind Item.declared? = some d) :
    ∃ c', Declaration.read? source c = some (some d, c') ∧ readDeclaration source c = (some (.declaring d), c') := by
  unfold readDeclaration at h ⊢
  split at h
  · rename_i x c' hr
    cases x with
    | none => cases h
    | some x =>
      cases h
      exact ⟨c', hr, rfl⟩
  · cases h

theorem declared?_exportOf (c : Cursor) (r : Option (Option ExportDecl × Cursor)) :
    (exportOf c r).1.bind Item.declared? = none := by
  rcases r with - | ⟨- | d, k⟩ <;> rfl

/-- at an export only the reader of declarations gives one -/
theorem declared?_readExport (line : Nat) : (readExport source line c).1.bind Item.declared? = none ∨
    readExport source line c = readDeclaration source c := by
  rw [readExport_eq]
  split_ifs
  · exact Or.inl rfl
  · exact Or.inl (declared?_exportOf _ _)
  · exact Or.inl (declared?_exportOf _ _)
  · exact Or.inl (declared?_exportOf _ _)
  · unfold exportRest
    split
    · exact Or.inl rfl
    · split_ifs
      · exact Or.inl rfl
      · exact Or.inr rfl

/-- a statement that declares something opens with a word or an at sign, and the reader of declarations reads it -/
theorem readStatement_eq {d : Declaration} (h : (readStatement source t c).1.bind Item.declared? = some d) :
    t.OpensDeclaration ∧ readStatement source t c = readDeclaration source c := by
  unfold readStatement at h ⊢
  split at h
  · rename_i word hkind
    split_ifs at h ⊢ with himport hexport hword
    · cases hread : (ImportDecl.read t.line c.next).1 <;> simp [hread, Item.declared?] at h
    · refine ⟨Or.inl ⟨word, by rw [eq_of_beq hexport]; exact List.mem_cons_self, hkind⟩, ?_⟩
      rcases declared?_readExport t.line with hnone | hdeclaration
      · rw [hnone] at h
        cases h
      · exact hdeclaration
    · exact ⟨Or.inl ⟨word, List.mem_cons_of_mem _ (by simpa using hword), hkind⟩, rfl⟩
    · cases h
  · rename_i ch hkind
    split_ifs at h ⊢ with hat
    · exact ⟨Or.inr (by rw [hkind, eq_of_beq hat]), rfl⟩
    · cases h
  · cases h

theorem declaredAt_readStatement (hts : Slashless c.rest) (hrest : c.rest = t :: ts)
    (hstarts : startsStatement c.prev t = true) :
    ∀ d ∈ (readStatement source t c).1.bind Item.declared?, DeclaredAt d (c.prev, t) := by
  intro d hd
  obtain ⟨hopens, hread⟩ := readStatement_eq hd
  rw [hread] at hd
  obtain ⟨c', hr, -⟩ := readDeclaration_eq hd
  obtain ⟨first, hfirst, hstart, hdoc, hheritage⟩ := Declaration.of_read? hts hr
  rw [hrest] at hfirst
  cases hfirst
  exact ⟨hstarts, hopens, hstart, hdoc, hheritage⟩

theorem filterMap_declared (i : Option Item) (items : List Item) :
    (i.toList ++ items).filterMap Item.declared? = (i.bind Item.declared?).toList ++
      items.filterMap Item.declared? := by
  rw [List.filterMap_append]
  cases i with
  | none => rfl
  | some i => cases hdecl : i.declared? <;> simp [hdecl]

/-- one statement more in front -/
theorem declared_cons {i : Option Item} {items : List Item} {p : Option Token × Token}
    {ps : List (Option Token × Token)} (hi : ∀ d ∈ i.bind Item.declared?, DeclaredAt d p)
    (h : List.SublistForall₂ DeclaredAt (items.filterMap Item.declared?) ps) :
    List.SublistForall₂ DeclaredAt ((i.toList ++ items).filterMap Item.declared?) (p :: ps) := by
  rw [filterMap_declared]
  cases hdecl : i.bind Item.declared? with
  | none => exact .cons_right h
  | some d => exact .cons (hi d hdecl) h

/-- **The declarations of statements** stand at places of the tokens ahead, in order. -/
theorem declared_itemsFrom (depth : Nat) (hts : Slashless c.rest) :
    List.SublistForall₂ DeclaredAt ((itemsFrom source depth c).filterMap Item.declared?) (places c.prev c.rest) := by
  have behind : ∀ {c : Cursor} {t : Token} {ts : List Token}, c.rest = t :: ts → Slashless c.rest → Slashless ts :=
    fun hrest hts u hu => hts u (by rw [hrest]; exact List.mem_cons_of_mem _ hu)
  have starts : ∀ {depth : Nat} {prev : Option Token} {t : Token},
      ¬ (decide (0 < depth) || !startsStatement prev t) = true →
      startsStatement prev t = true := by
    intro depth prev t hdepth
    by_contra hno
    exact hdepth (by simp [hno])
  fun_induction itemsFrom source depth c with
  | case1 => exact .nil
  | case2 depth c t ts hrest hopen ih =>
    rw [hrest, places]
    exact .cons_right (ih (behind hrest hts))
  | case3 depth c t ts hrest hopen hclose ih =>
    rw [hrest, places]
    exact .cons_right (ih (behind hrest hts))
  | case4 depth c t ts hrest hopen hclose hdepth ih =>
    rw [hrest, places]
    exact .cons_right (ih (behind hrest hts))
  | case5 depth c t ts hrest hopen hclose hdepth read hlt ih =>
    have hon : c.Onward read.2 := (within_readStatement .refl source t).1
    have hrecord := ih fun u hu => hts u (hon.subset hu)
    rw [hrest, places]
    exact declared_cons (declaredAt_readStatement hts hrest (starts hdepth))
      (sublistForall₂_of_suffix hrecord (hon.places_suffix_of_lt hrest hlt))
  | case6 depth c t ts hrest hopen hclose hdepth read hlt ih =>
    rw [hrest, places]
    exact declared_cons (declaredAt_readStatement hts hrest (starts hdepth)) (ih (behind hrest hts))

end

theorem declarations_foldl_add (items : List Item) : ∀ m : ModuleSummary,
    (items.foldl add m).declarations = m.declarations ++ items.filterMap Item.declared? := by
  induction items with
  | nil => intro m; simp
  | cons i items ih =>
    intro m
    rw [List.foldl_cons, ih]
    cases i <;> simp [add, Item.declared?, List.filterMap_cons]

/-- **The declarations of a summary** stand at places of its tokens, in order. -/
theorem declared_ofTokens (source : List Char) {ts : List Token} (hts : Slashless ts) :
    List.SublistForall₂ DeclaredAt (ofTokens source ts).declarations (places none ts) := by
  rw [ofTokens, declarations_foldl_add]
  exact declared_itemsFrom (c := Cursor.start ts) 0 hts

end ModuleSummary

end ClosurePipeline
