/-
The summary by index. Declarations, statements and the summary of a text once more, now with every access to a token by
its index and every cut of the text checked. Loops go on from an index to a later one, as the readers go on from a place
to one further on.

- `decorator`, `typeList`, `membersFrom`, `body`, `declaration`: the parts of a declaration, and the whole of it;
- `statement`, `itemsFrom`: the statements outside all braces;
- an equation for each of them says that it never fails and gives what the reader gives: `decorator_eq`, `typeList_eq`,
  `membersFrom_eq`, `body_eq`, `declaration_eq`, `statement_eq`, `itemsFrom_eq`;
- `scan_eq`: so the summary of every text is read without a fault.
-/
import Mathlib.Tactic
import ClosurePipeline.Proofs.Module.Access
import ClosurePipeline.Proofs.Pass.Placed

namespace ClosurePipeline.Indexed

/-! ## Decorators -/

/-- the index of the bracket that closes the one at `i`, which is `opening` -/
def matching (ts : List Token) (opening closer : Char) (i : Nat) : Option Nat :=
  ((place ts i).enclosed? opening closer).map fun e => index ts e.after - 1

/-- the decorator at index `i`, and the index behind it -/
def decorator (source : List Char) (ts : List Token) (i : Nat) : Except Fault (Option (Decorator × Nat)) :=
  match (place ts (i + 1)).dottedName? with
  | none => .ok none
  | some (name, after) => do
    let last ← tokenBefore ts (index ts after)
    if after.isPunct 0 '(' then
      match matching ts '(' ')' (index ts after) with
      | none => .ok none
      | some close =>
        let opening ← token ts (index ts after)
        let closing ← token ts close
        let arguments ← text source opening.stop closing.start
        let first ← token ts i
        .ok (some (⟨name, some (String.ofList arguments), ⟨first.start, closing.stop⟩, first.line⟩, close + 1))
    else
      let first ← token ts i
      .ok (some (⟨name, none, ⟨first.start, last.stop⟩, first.line⟩, index ts after))

section

variable {source : List Char} {ts rest : List Token} {c : Cursor} {prev : Option Token} {t p : Token}

theorem lt_of_dottedName? {i : Nat} {name : String} {after : Cursor}
    (h : (place ts i).dottedName? = some (name, after)) : i < index ts after := by
  have hlt := Cursor.ahead_dottedName?_lt h
  rw [ahead_place] at hlt
  simp only [index]
  omega

theorem lt_of_matching {opening closer : Char} {i close : Nat} (h : matching ts opening closer i = some close) :
    i ≤ close := by
  obtain ⟨e, he, rfl⟩ := Option.map_eq_some_iff.1 h
  have hlt := Cursor.ahead_enclosed?_lt he
  rw [ahead_place] at hlt
  simp only [index]
  omega

theorem lt_of_decorator {i j : Nat} {d : Decorator} (h : decorator source ts i = .ok (some (d, j))) : i < j := by
  unfold decorator at h
  split at h
  · cases h
  · rename_i name after hname
    have hafter := lt_of_dottedName? hname
    obtain ⟨last, -, h⟩ := bind_eq_ok h
    split_ifs at h
    · split at h
      · cases h
      · rename_i close hclose
        have hle := lt_of_matching hclose
        obtain ⟨opening, -, h⟩ := bind_eq_ok h
        obtain ⟨closing, -, h⟩ := bind_eq_ok h
        obtain ⟨arguments, -, h⟩ := bind_eq_ok h
        obtain ⟨first, -, h⟩ := bind_eq_ok h
        cases h
        omega
    · obtain ⟨first, -, h⟩ := bind_eq_ok h
      cases h
      omega

theorem lt_length_of_isPunct {i k : Nat} {ch : Char} (h : (place ts i).isPunct k ch = true) : i < ts.length := by
  refine lt_length_of_rest ?_
  intro hnil
  rw [Cursor.isPunct, hnil] at h
  cases h

/-- the partner of a bracket is the token in front of the place behind it -/
theorem exists_matching (h : (Cursor.start ts).Onward c) {opening closer : Char} {e : Cursor.Enclosed}
    (he : c.enclosed? opening closer = some e) :
    ∃ close, matching ts opening closer (index ts c) = some close ∧ token ts close = .ok e.close ∧
      close + 1 = index ts e.after ∧ (Cursor.start ts).Onward e.after := by
  have hafter := (h.enclosed? he).2
  obtain ⟨t, -, hpass, -, -⟩ := Cursor.passes_enclosed? he
  have hprev : e.after.prev = some e.close := by
    rw [hpass.prev, ← List.cons_append, List.getLast?_concat]
    rfl
  have hbefore := tokenBefore_eq hafter hprev
  -- a token stands in front of the place behind the bracket, so that place is not the first
  cases hindex : index ts e.after with
  | zero => rw [hindex] at hbefore; cases hbefore
  | succ close =>
    rw [hindex] at hbefore
    refine ⟨close, ?_, hbefore, rfl, hafter⟩
    rw [matching, place_index h, he, Option.map_some, hindex, Nat.add_sub_cancel]

theorem matching_eq_none (h : (Cursor.start ts).Onward c) {opening closer : Char}
    (he : c.enclosed? opening closer = none) :
    matching ts opening closer (index ts c) = none := by
  rw [matching, place_index h, he]
  rfl

end

/-- a place further on in the tokens of a text -/
theorem text_eq {source : List Char} {c : Cursor} (h : (Cursor.start (Lexer.tokenize source)).Onward c)
    {opening closer : Char} {e : Cursor.Enclosed} (he : c.enclosed? opening closer = some e) {t : Token}
    (ht : c.rest.head? = some t) :
    text source t.stop e.close.start = .ok (Text.slice source t.stop e.close.start) := by
  obtain ⟨u, -, hpass, -, -⟩ := Cursor.passes_enclosed? he
  obtain rfl : u = t := by
    rw [hpass.rest] at ht
    exact Option.some.inj ht
  obtain ⟨front, htokens, -, -⟩ := exists_passed h
  have hsplit : Lexer.tokenize source = (front ++ u :: e.inner) ++ (e.close :: e.after.rest) := by
    rw [htokens, hpass.rest]
    simp
  have hle : u.stop ≤ e.close.start := Lexer.stop_le_start hsplit (by simp) List.mem_cons_self
  have hu : u ∈ Lexer.tokenize source := by simp [hsplit]
  have hclose : e.close ∈ Lexer.tokenize source := by simp [hsplit]
  rw [text, if_pos ⟨hle, isBoundary_of_onBoundary (Lexer.onBoundary_of_mem hu).2,
    isBoundary_of_onBoundary (Lexer.onBoundary_of_mem hclose).1⟩]

section

variable {source : List Char} {c : Cursor}

/-- a dotted name ends with the token behind it -/
theorem exists_prev_of_dottedName? {name : String} {after : Cursor} (h : c.dottedName? = some (name, after)) :
    ∃ last, after.prev = some last := by
  obtain ⟨passed, last, hpass, hlast, -⟩ := Cursor.passes_dottedName? h
  exact ⟨last, by rw [hpass.prev, hlast]; rfl⟩

/-- **A decorator is read without a fault:** all tokens it looks at are there, and its arguments are cut between
characters. -/
theorem decorator_eq (h : (Cursor.start (Lexer.tokenize source)).Onward c) (hne : c.rest ≠ []) :
    decorator source (Lexer.tokenize source) (index (Lexer.tokenize source) c) =
      .ok ((Decorator.read? source c).map fun r => (r.1, index (Lexer.tokenize source) r.2)) := by
  generalize hts : Lexer.tokenize source = ts at h ⊢
  obtain ⟨prev, rest⟩ := c
  obtain ⟨first, rest, rfl⟩ := List.exists_cons_of_ne_nil hne
  have hread : Decorator.read? source ⟨prev, first :: rest⟩ = (Cursor.dottedName? ⟨some first, rest⟩).bind fun r =>
      if r.2.isPunct 0 '(' then
        r.2.rest.head?.bind fun opening => (r.2.enclosed? '(' ')').bind fun e =>
          some (⟨r.1, some (String.ofList (Text.slice source opening.stop e.close.start)), ⟨first.start, e.close.stop⟩,
            first.line⟩, e.after)
      else r.2.prev.bind fun last => some (⟨r.1, none, ⟨first.start, last.stop⟩, first.line⟩, r.2) := rfl
  rw [decorator, place_succ h, hread]
  cases hname : Cursor.dottedName? ⟨some first, rest⟩ with
  | none => rfl
  | some r =>
    obtain ⟨name, after⟩ := r
    have hafter := h.pass.dottedName? hname
    obtain ⟨last, hlast⟩ := exists_prev_of_dottedName? hname
    simp only [tokenBefore_eq hafter hlast, ok_bind, Option.bind_some, hlast, token_eq h]
    by_cases hparen : after.isPunct 0 '(' = true
    · -- looking for a parenthesis finds one only where there is a token
      obtain ⟨opening, behind, hopening⟩ := List.exists_cons_of_ne_nil (Cursor.rest_ne_nil_of_isPunct hparen)
      have htoken : token ts (index ts after) = .ok opening := by
        obtain ⟨before, ahead⟩ := after
        simp only at hopening
        subst hopening
        exact token_eq hafter
      cases he : after.enclosed? '(' ')' with
      | none => simp [hparen, hopening, matching_eq_none hafter he]
      | some e =>
        obtain ⟨close, hmatching, hclose, hindex, -⟩ := exists_matching hafter he
        have hhead : after.rest.head? = some opening := by rw [hopening]; rfl
        have hcut := @text_eq source after (hts ▸ hafter) _ _ e he opening hhead
        simp [hparen, hhead, hmatching, htoken, hclose, hcut, ok_bind, hindex]
    · simp [hparen]

end

/-- the decorators at index `i`, and the index behind them -/
def decorators (source : List Char) (ts : List Token) (i : Nat) : Except Fault (Option (List Decorator × Nat)) :=
  if _hat : (place ts i).isPunct 0 '@' = true then
    match _hd : decorator source ts i with
    | .error f => .error f
    | .ok none => .ok none
    | .ok (some (d, j)) => (decorators source ts j).map fun more => more.map fun (ds, k) => (d :: ds, k)
  else .ok (some ([], i))
termination_by ts.length - i
decreasing_by
  have hlt := lt_of_decorator _hd
  have hin := lt_length_of_isPunct _hat
  omega

theorem decorators_step (source : List Char) (ts : List Token) (i : Nat) : decorators source ts i =
    if (place ts i).isPunct 0 '@' then do
      match ← decorator source ts i with
      | none => .ok none
      | some (d, j) => (decorators source ts j).map fun more => more.map fun (ds, k) => (d :: ds, k)
    else .ok (some ([], i)) := by
  rw [decorators]
  split_ifs
  · split
    · rename_i hd
      rw [hd]
      rfl
    · rename_i hd
      rw [hd]
      rfl
    · rename_i hd
      rw [hd]
      rfl
  · rfl

/-- **Decorators are read without a fault.** -/
theorem decorators_eq {source : List Char} (c : Cursor) : (Cursor.start (Lexer.tokenize source)).Onward c →
    decorators source (Lexer.tokenize source) (index (Lexer.tokenize source) c) =
      .ok ((Decorator.readAll? source c).map fun r => (r.1, index (Lexer.tokenize source) r.2)) := by
  fun_induction Decorator.readAll? source c with
  | case1 c hat hr =>
    intro h
    rw [decorators_step, place_index h, if_pos hat, decorator_eq h (Cursor.rest_ne_nil_of_isPunct hat), hr]
    rfl
  | case2 c hat d c' hr ih =>
    intro h
    rw [decorators_step, place_index h, if_pos hat, decorator_eq h (Cursor.rest_ne_nil_of_isPunct hat), hr,
      Option.map_some, ok_bind]
    simp only [ih (Decorator.onward_read? h hr), Except.map, Option.map_map, Function.comp_def]
  | case3 c hat =>
    intro h
    rw [decorators_step, place_index h, if_neg hat]
    rfl

/-! ## Heritage -/

/-- a type is passed, with its type arguments if it has any -/
theorem lt_of_typed {ts : List Token} {k j : Nat} {name : String} {after : Cursor}
    (hn : (place ts k).dottedName? = some (name, after)) (hs : skipTypes ts (index ts after) = .ok j) : k < j :=
  (lt_of_dottedName? hn).trans_le (le_of_skipTypes hs)

/-- the types at index `k`, divided by commas, and the index behind them -/
def typeList (ts : List Token) (k : Nat) : Except Fault (List String × Nat) :=
  match _hn : (place ts k).dottedName? with
  | none => .ok ([], k)
  | some (name, after) =>
    match _hs : skipTypes ts (index ts after) with
    | .error f => .error f
    | .ok j =>
      if (place ts j).isPunct 0 '(' then
        match _hm : matching ts '(' ')' j with
        | none => .ok ([name], j)
        | some close =>
          if _hc : (place ts (close + 1)).isPunct 0 ',' = true then
            (typeList ts (close + 2)).map fun (names, k) => (name :: names, k)
          else .ok ([name], close + 1)
      else if _hc : (place ts j).isPunct 0 ',' = true then
        (typeList ts (j + 1)).map fun (names, k) => (name :: names, k)
      else .ok ([name], j)
termination_by ts.length - k
decreasing_by
  · have hname := lt_of_typed _hn _hs
    have hclose := lt_of_matching _hm
    have hin := lt_length_of_isPunct _hc
    omega
  · have hname := lt_of_typed _hn _hs
    have hin := lt_length_of_isPunct _hc
    omega

theorem map_eq_ok {α β : Type} {x : Except Fault α} {f : α → β} {b : β} (h : x.map f = .ok b) :
    ∃ a, x = .ok a ∧ f a = b := by
  cases x with
  | error e => cases h
  | ok a => exact ⟨a, rfl, Except.ok.inj h⟩

theorem le_of_typeList {ts : List Token} (k : Nat) :
    ∀ {names : List String} {j : Nat}, typeList ts k = .ok (names, j) → k ≤ j := by
  fun_induction typeList ts k with
  | case1 k hn =>
    intro names j h
    cases h
    exact Nat.le_refl k
  | case2 k name after hn f hs => intro names j h; cases h
  | case3 k name after hn j hs hp hm =>
    intro names j' h
    cases h
    exact (lt_of_typed hn hs).le
  | case4 k name after hn j hs hp close hm hc ih =>
    intro names j' h
    obtain ⟨⟨names', k'⟩, hrest, e⟩ := map_eq_ok h
    cases e
    have hname := lt_of_typed hn hs
    have hclose := lt_of_matching hm
    have hle := ih hrest
    omega
  | case5 k name after hn j hs hp close hm hc =>
    intro names j' h
    cases h
    have hname := lt_of_typed hn hs
    have hclose := lt_of_matching hm
    omega
  | case6 k name after hn j hs hp hc ih =>
    intro names j' h
    obtain ⟨⟨names', k'⟩, hrest, e⟩ := map_eq_ok h
    cases e
    have hname := lt_of_typed hn hs
    have hle := ih hrest
    omega
  | case7 k name after hn j hs hp hc =>
    intro names j' h
    cases h
    exact (lt_of_typed hn hs).le

section

variable {ts : List Token} {c : Cursor}

/-- the place behind the next token -/
theorem index_next (h : (Cursor.start ts).Onward c) (hne : c.rest ≠ []) : index ts c.next = index ts c + 1 := by
  obtain ⟨prev, rest⟩ := c
  obtain ⟨t, rest, rfl⟩ := List.exists_cons_of_ne_nil hne
  exact index_succ h

theorem typeList_step (ts : List Token) (k : Nat) : typeList ts k =
    (match (place ts k).dottedName? with
    | none => .ok ([], k)
    | some (name, after) => do
      let j ← skipTypes ts (index ts after)
      if (place ts j).isPunct 0 '(' then
        match matching ts '(' ')' j with
        | none => .ok ([name], j)
        | some close =>
          if (place ts (close + 1)).isPunct 0 ',' then
            (typeList ts (close + 2)).map fun (names, k) => (name :: names, k)
          else .ok ([name], close + 1)
      else if (place ts j).isPunct 0 ',' then (typeList ts (j + 1)).map fun (names, k) => (name :: names, k)
      else .ok ([name], j)) := by
  rw [typeList]
  split
  · rename_i hn
    rw [hn]
  · rename_i hn
    rw [hn]
    dsimp only
    split
    · rename_i hs
      rw [hs]
      rfl
    · rename_i hs
      rw [hs, ok_bind]
      split_ifs
      · split
        · rename_i hm
          rw [hm]
        · rename_i hm
          rw [hm]
          rfl
      · rfl
      · rfl

/-- a list that starts with a type, read on from the place behind that type and its type arguments -/
theorem typeList_named (h : (Cursor.start ts).Onward c) {name : String} {after : Cursor}
    (hn : c.dottedName? = some (name, after)) :
    typeList ts (index ts c) =
      if after.skipTypeArguments.isPunct 0 '(' then
        match matching ts '(' ')' (index ts after.skipTypeArguments) with
        | none => .ok ([name], index ts after.skipTypeArguments)
        | some close =>
          if (place ts (close + 1)).isPunct 0 ',' then
            (typeList ts (close + 2)).map fun (names, k) => (name :: names, k)
          else .ok ([name], close + 1)
      else if after.skipTypeArguments.isPunct 0 ',' then
        (typeList ts (index ts after.skipTypeArguments + 1)).map fun (names, k) => (name :: names, k)
      else .ok ([name], index ts after.skipTypeArguments) := by
  rw [typeList_step, place_index h, hn]
  simp only [skipTypes_eq (h.dottedName? hn), ok_bind, place_index (h.dottedName? hn).skipTypeArguments]

/-- **A list of types is read without a fault.** -/
theorem typeList_eq (c : Cursor) : (Cursor.start ts).Onward c →
    typeList ts (index ts c) = .ok ((Heritage.readTypes c).1, index ts (Heritage.readTypes c).2) := by
  fun_induction Heritage.readTypes c with
  | case1 c hn =>
    intro h
    rw [typeList_step, place_index h, hn]
  | case2 c name c1 hn hp he =>
    intro h
    rw [typeList_named h hn, if_pos hp, matching_eq_none (h.dottedName? hn).skipTypeArguments he]
  | case3 c name c1 hn hp e he hc names c2 hr ih =>
    intro h
    obtain ⟨close, hmatching, -, hindex, hbehind⟩ := exists_matching (h.dottedName? hn).skipTypeArguments he
    have hnext : close + 2 = index ts e.after.next := by
      rw [index_next hbehind (Cursor.rest_ne_nil_of_isPunct hc)]
      omega
    rw [hr] at ih
    rw [typeList_named h hn, if_pos hp, hmatching]
    simp only [hindex, place_index hbehind, hc, if_true, hnext, ih hbehind.next, Except.map]
  | case4 c name c1 hn hp e he hc =>
    intro h
    obtain ⟨close, hmatching, -, hindex, hbehind⟩ := exists_matching (h.dottedName? hn).skipTypeArguments he
    rw [typeList_named h hn, if_pos hp, hmatching]
    simp only [hindex, place_index hbehind, hc, Bool.false_eq_true, if_false]
  | case5 c name c1 hn hp hc names c2 hr ih =>
    intro h
    have hafter := (h.dottedName? hn).skipTypeArguments
    rw [hr] at ih
    rw [typeList_named h hn, if_neg hp, if_pos hc, ← index_next hafter (Cursor.rest_ne_nil_of_isPunct hc),
      ih hafter.next]
    rfl
  | case6 c name c1 hn hp hc =>
    intro h
    rw [typeList_named h hn, if_neg hp, if_neg hc]

end

/-- the `extends` and `implements` lists at index `j`, and the index behind them -/
def heritage (ts : List Token) (x : Heritage) (j : Nat) : Except Fault (Heritage × Nat) :=
  if _he : (place ts j).isIdent 0 "extends" = true then
    match _ht : typeList ts (j + 1) with
    | .error f => .error f
    | .ok (names, k) => heritage ts { x with extended := x.extended ++ names } k
  else if _hi : (place ts j).isIdent 0 "implements" = true then
    match _ht : typeList ts (j + 1) with
    | .error f => .error f
    | .ok (names, k) => heritage ts { x with implemented := x.implemented ++ names } k
  else .ok (x, j)
termination_by ts.length - j
decreasing_by
  · have hle := le_of_typeList _ _ht
    have hin := lt_length_of_rest (Cursor.rest_ne_nil_of_isIdent _he)
    omega
  · have hle := le_of_typeList _ _ht
    have hin := lt_length_of_rest (Cursor.rest_ne_nil_of_isIdent _hi)
    omega

section

variable {ts : List Token} {c : Cursor}

theorem heritage_step (ts : List Token) (x : Heritage) (j : Nat) : heritage ts x j =
    if (place ts j).isIdent 0 "extends" then do
      let (names, k) ← typeList ts (j + 1)
      heritage ts { x with extended := x.extended ++ names } k
    else if (place ts j).isIdent 0 "implements" then do
      let (names, k) ← typeList ts (j + 1)
      heritage ts { x with implemented := x.implemented ++ names } k
    else .ok (x, j) := by
  rw [heritage]
  split_ifs
  · split
    · rename_i ht
      rw [ht]
      rfl
    · rename_i ht
      rw [ht]
      rfl
  · split
    · rename_i ht
      rw [ht]
      rfl
    · rename_i ht
      rw [ht]
      rfl
  · rfl

/-- **The types a declaration builds on are read without a fault.** -/
theorem heritage_eq (x : Heritage) (c : Cursor) : (Cursor.start ts).Onward c →
    heritage ts x (index ts c) = .ok ((Heritage.read x c).1, index ts (Heritage.read x c).2) := by
  fun_induction Heritage.read x c with
  | case1 x c he ih =>
    intro h
    rw [heritage_step, place_index h, if_pos he, ← index_next h (Cursor.rest_ne_nil_of_isIdent he),
      typeList_eq _ h.next, ok_bind]
    exact ih (Heritage.onward_readTypes h.next)
  | case2 x c he hi ih =>
    intro h
    rw [heritage_step, place_index h, if_neg he, if_pos hi, ← index_next h (Cursor.rest_ne_nil_of_isIdent hi),
      typeList_eq _ h.next, ok_bind]
    exact ih (Heritage.onward_readTypes h.next)
  | case3 x c he hi =>
    intro h
    rw [heritage_step, place_index h, if_neg he, if_neg hi]

end

/-- the class or interface lists at index `j`; other kinds have none -/
def heritageOf (ts : List Token) (kind : DeclKind) (j : Nat) : Except Fault (Heritage × Nat) :=
  if kind == .classDecl || kind == .interfaceDecl then heritage ts {} j else .ok ({}, j)

section

variable {ts : List Token} {c : Cursor}

theorem heritageOf_eq (kind : DeclKind) (h : (Cursor.start ts).Onward c) :
    heritageOf ts kind (index ts c) =
      .ok ((Declaration.readHeritage kind c).1, index ts (Declaration.readHeritage kind c).2) := by
  unfold heritageOf Declaration.readHeritage
  split_ifs
  · exact heritage_eq {} c h
  · rfl

end

/-! ## Members and bodies -/

/-- the members named at `n` indices from `k` on; `depth` is one at the outer level -/
def membersFrom (ts : List Token) (k depth : Nat) (found : List String) : Nat → Except Fault (List String)
  | 0 => .ok found
  | n + 1 => do
    let t ← token ts k
    if Declaration.opens t then membersFrom ts (k + 1) (depth + 1) found n
    else if Declaration.closes t then membersFrom ts (k + 1) (depth - 1) found n
    else if depth = 1 then
      match t.name? with
      | none => membersFrom ts (k + 1) depth found n
      | some name =>
        let prev ← tokenBefore ts k
        let declares := ['?', ':', '(', '<'].any fun ch => (place ts (k + 1)).isPunct 0 ch
        if Declaration.startsMember prev t && declares &&
          !found.contains name then membersFrom ts (k + 1) depth (found ++ [name]) n
        else membersFrom ts (k + 1) depth found n
    else membersFrom ts (k + 1) depth found n

/-- the body at index `j` and, of an interface, its members -/
def body (ts : List Token) (kind : DeclKind) (j : Nat) : Except Fault (Option Span × List String) :=
  if (kind == .classDecl || kind == .interfaceDecl || kind == .enumDecl) && (place ts j).isPunct 0 '{' then
    match matching ts '{' '}' j with
    | none => .ok (none, [])
    | some close => do
      let opening ← token ts j
      let closing ← token ts close
      let members ← if kind == .interfaceDecl then membersFrom ts j 0 [] (close - j) else .ok []
      .ok (some ⟨opening.start, closing.stop⟩, members)
  else .ok (none, [])

section

variable {ts behind : List Token} {c : Cursor} {close p : Token}

/-- what stands behind the last token of a body is no sign of a member -/
theorem declaresMember_eq (hclose : close.isPunct '}' = true) (prev : Option Token) (inner : List Token) :
    (['?', ':', '(', '<'].any fun ch => Cursor.isPunct ⟨prev, inner ++ close :: behind⟩ 0 ch) =
      Declaration.declaresMember inner.head? := by
  cases inner with
  | nil =>
    have hkind : close.kind = .punct '}' := eq_of_beq hclose
    simp [Cursor.isPunct, Declaration.declaresMember, Token.isPunct, hkind]
  | cons t inner => simp [Cursor.isPunct, Declaration.declaresMember, Bool.or_assoc]

/-- **Members are read without a fault.** -/
theorem membersFrom_eq (hclose : close.isPunct '}' = true) (inner : List Token) :
    ∀ (p : Token) (depth : Nat) (found : List String),
    (Cursor.start ts).Onward ⟨some p, inner ++ close :: behind⟩ →
      membersFrom ts (index ts ⟨some p, inner ++ close :: behind⟩) depth found inner.length =
        .ok (Declaration.membersFrom p depth found inner) := by
  -- the closing brace stays behind what is left, so a token that decides about a member is always there
  induction inner with
  | nil => exact fun p depth found h => rfl
  | cons t inner ih =>
    intro p depth found h
    rw [List.cons_append] at h ⊢
    have hnext : ∀ depth found,
        membersFrom ts (index ts ⟨some p, t :: (inner ++ close :: behind)⟩ + 1) depth found inner.length =
        .ok (Declaration.membersFrom t depth found inner) := by
      intro depth found
      rw [← index_succ h]
      exact ih t depth found h.pass
    rw [List.length_cons, membersFrom, token_eq h, ok_bind, Declaration.membersFrom, tokenBefore_eq h rfl, place_succ h,
      declaresMember_eq hclose]
    simp only [hnext, ok_bind]
    split_ifs with hopens hcloses hdepth
    · rfl
    · rfl
    · unfold Declaration.member?
      cases hname : t.name? with
      | none => simp
      | some name =>
        by_cases hstarts : (Declaration.startsMember p t && Declaration.declaresMember inner.head?) = true
        · by_cases hfound : name ∈ found <;> simp [hstarts, hfound]
        · simp [hstarts]
    · rfl

/-- the members between two braces, read from the opening one on -/
theorem membersFrom_braces {opening : Token} {inner : List Token} {prev : Option Token}
    (hopening : opening.isPunct '{' = true) (hclose : close.isPunct '}' = true)
    (h : (Cursor.start ts).Onward ⟨prev, opening :: (inner ++ close :: behind)⟩) :
    membersFrom ts (index ts ⟨prev, opening :: (inner ++ close :: behind)⟩) 0 [] (inner.length + 1) =
      .ok (Declaration.membersFrom opening 1 [] inner) := by
  have hopens : Declaration.opens opening = true := by rw [Declaration.opens, hopening, Bool.true_or, Bool.true_or]
  rw [membersFrom, token_eq h, ok_bind, if_pos hopens, ← index_succ h]
  exact membersFrom_eq hclose inner opening 1 [] h.pass

/-- **A body is read without a fault.** -/
theorem body_eq (kind : DeclKind) (h : (Cursor.start ts).Onward c) :
    body ts kind (index ts c) = .ok (Declaration.readBody kind c) := by
  rw [body, place_index h, Declaration.readBody]
  generalize (kind == .classDecl || kind == .interfaceDecl || kind == .enumDecl) = braced
  cases braced with
  | false => rfl
  | true =>
    simp only [Bool.true_and, if_true]
    by_cases hbrace : c.isPunct 0 '{' = true
    · rw [if_pos hbrace]
      obtain ⟨prev, rest⟩ := c
      obtain ⟨opening, rest, rfl⟩ := List.exists_cons_of_ne_nil (Cursor.rest_ne_nil_of_isPunct hbrace)
      cases he : Cursor.enclosed? '{' '}' ⟨prev, opening :: rest⟩ with
      | none => rw [matching_eq_none h he]; rfl
      | some e =>
        obtain ⟨close, hmatching, hclosing, hindex, hafter⟩ := exists_matching h he
        obtain ⟨u, hopening, hpass, hclose, -⟩ := Cursor.passes_enclosed? he
        obtain ⟨rfl, rfl⟩ : opening = u ∧ rest = e.inner ++ e.close :: e.after.rest := by simpa using hpass.rest
        -- members are looked for at as many indices as there are tokens in front of the closing brace
        have hcount : close - index ts ⟨prev, opening :: (e.inner ++ e.close :: e.after.rest)⟩ =
            e.inner.length + 1 := by
          have hsum := index_add_ahead h
          have hsum' := index_add_ahead hafter
          simp only [Cursor.ahead, List.length_cons, List.length_append] at hsum hsum'
          omega
        rw [hmatching]
        simp only [token_eq h, ok_bind, hclosing, hcount, membersFrom_braces hopening hclose h, List.head?_cons]
        split_ifs <;> rfl
    · rw [if_neg hbrace]
      have hnone : c.enclosed? '{' '}' = none := by
        obtain ⟨prev, rest⟩ := c
        cases rest with
        | nil => rfl
        | cons t rest => exact if_neg hbrace
      rw [hnone]
      cases c.rest.head? <;> rfl

end

/-! ## Declarations -/

/-- the rest of a declaration behind the word that gives its kind, from index `j` on; the declaration started at index
`start` -/
def declarationRest (ts : List Token) (kind : DeclKind) (mods : Declaration.Modifiers) (decorators : List Decorator)
    (doc : Option DocComment) (start j : Nat) : Except Fault (Option (Option Declaration × Nat)) :=
  let j := if kind == .functionDecl && (place ts j).isPunct 0 '*' then j + 1 else j
  match Declaration.readName? kind mods.isDefault (place ts j) with
  | none => .ok (some (none, j))
  | some (name, c) =>
    if kind == .typeAlias && !(c.isPunct 0 '=' || c.isPunct 0 '<') then .ok none
    else do
      let j ← skipTypes ts (index ts c)
      let (heritage, j) ← heritageOf ts kind j
      let (body, members) ← body ts kind j
      let first ← token ts start
      .ok (some (some {
        name := name
        kind := kind
        exported := mods.exported
        isDefault := mods.isDefault
        ambient := mods.ambient
        doc := doc
        decorators := decorators
        heritage := heritage
        members := members
        body := body
        start := first.start
        line := first.line }, j))

/-- the declaration at index `start`, and the index to go on from -/
def declaration (source : List Char) (ts : List Token) (start : Nat) :
    Except Fault (Option (Option Declaration × Nat)) := do
  let prev ← previous ts start
  match ← decorators source ts start with
  | none => .ok none
  | some (decorators, i) =>
    let (mods, c) := Declaration.Modifiers.read {} (place ts i)
    match (c.ident? 0).bind Declaration.kindOf? with
    | none => .ok (some (none, index ts c))
    | some kind => declarationRest ts kind mods decorators (prev.bind Declaration.docOf?) start (index ts c + 1)

section

variable {source : List Char} {ts : List Token} {c start : Cursor} {first : Token}

/-- **A declaration is read without a fault** behind the word that gives its kind. -/
theorem declarationRest_eq (hstart : token ts (index ts start) = .ok first) (kind : DeclKind)
    (mods : Declaration.Modifiers) (decorators : List Decorator) (h : (Cursor.start ts).Onward c) :
    declarationRest ts kind mods decorators (start.prev.bind Declaration.docOf?) (index ts start) (index ts c) =
      .ok ((Declaration.readRest kind mods decorators start first c).map fun r => (r.1, index ts r.2)) := by
  have hstar : (if kind == .functionDecl && c.isPunct 0 '*' then index ts c + 1 else index ts c) =
      index ts (if kind == .functionDecl && c.isPunct 0 '*' then c.next else c) := by
    split_ifs with hfunction
    · exact (index_next h (Cursor.rest_ne_nil_of_isPunct (Bool.and_eq_true_iff.1 hfunction).2)).symm
    · rfl
  have hon : (Cursor.start ts).Onward (if kind == .functionDecl && c.isPunct 0 '*' then c.next else c) := h.ite_next _
  unfold declarationRest Declaration.readRest
  simp only [place_index h, hstar]
  generalize (if kind == .functionDecl && c.isPunct 0 '*' then c.next else c) = c₁ at hon
  rw [place_index hon]
  cases hname : Declaration.readName? kind mods.isDefault c₁ with
  | none => rfl
  | some r =>
    obtain ⟨name, c₂⟩ := r
    have hc₂ := (Declaration.onward_readName? hon hname).skipTypeArguments
    have hheritage := Declaration.onward_readHeritage kind hc₂
    by_cases halias : (kind == .typeAlias && !(c₂.isPunct 0 '=' || c₂.isPunct 0 '<')) = true
    · simp only [halias, if_true, Option.map_none]
    · simp only [halias, Bool.false_eq_true, if_false, skipTypes_eq (Declaration.onward_readName? hon hname), ok_bind,
        heritageOf_eq kind hc₂, body_eq kind hheritage, hstart, Option.map_some]

/-- **A declaration is read without a fault.** -/
theorem declaration_eq (h : (Cursor.start (Lexer.tokenize source)).Onward c) (hne : c.rest ≠ []) :
    declaration source (Lexer.tokenize source) (index (Lexer.tokenize source) c) =
      .ok ((Declaration.read? source c).map fun r => (r.1, index (Lexer.tokenize source) r.2)) := by
  rw [declaration, previous_eq h, ok_bind, decorators_eq c h, ok_bind, Declaration.read?]
  obtain ⟨first, rest, hrest⟩ := List.exists_cons_of_ne_nil hne
  have hfirst : token (Lexer.tokenize source) (index (Lexer.tokenize source) c) = .ok first := by
    obtain ⟨prev, ahead⟩ := c
    cases hrest
    exact token_eq h
  have hhead : c.rest.head? = some first := by rw [hrest]; rfl
  rw [hhead]
  simp only [Option.bind_eq_bind, Option.bind_some]
  cases hall : Decorator.readAll? source c with
  | none => rfl
  | some r =>
    obtain ⟨decorators, c₁⟩ := r
    have hc₁ := Decorator.onward_readAll? h hall
    have hmods := Declaration.Modifiers.onward_read hc₁ {}
    simp only [Option.map_some, Option.bind_some, place_index hc₁]
    cases hkind : ((Declaration.Modifiers.read {} c₁).2.ident? 0).bind Declaration.kindOf? with
    | none => rfl
    | some kind =>
      obtain ⟨w, hword, -⟩ := Option.bind_eq_some_iff.1 hkind
      simp only [← index_next hmods (Cursor.rest_ne_nil_of_ident? hword)]
      exact declarationRest_eq hfirst kind _ decorators hmods.next

end

/-! ## Statements -/

/-- the declaration at index `i` as an item; where there is none reading goes on one index further -/
def declaring (source : List Char) (ts : List Token) (i : Nat) : Except Fault (Option ModuleSummary.Item × Nat) := do
  match ← declaration source ts i with
  | some (d, j) => .ok (d.map .declaring, j)
  | none => .ok (none, i + 1)

/-- the import at index `i` -/
def importing (ts : List Token) (i : Nat) : Except Fault (Option ModuleSummary.Item × Nat) := do
  let first ← token ts i
  let (d, c) := ImportDecl.read first.line (place ts (i + 1))
  .ok (d.map .importing, index ts c)

/-- what is read of an export as an item, and index `i` to go on from if nothing is -/
def exported (ts : List Token) (i : Nat) : Option (Option ExportDecl × Cursor) → Option ModuleSummary.Item × Nat
  | some (d, c) => (d.map .exporting, index ts c)
  | none => (none, i)

/-- the export at index `i` -/
def exporting (source : List Char) (ts : List Token) (i : Nat) : Except Fault (Option ModuleSummary.Item × Nat) := do
  let first ← token ts i
  let c := place ts (i + 1)
  if c.isPunct 0 '=' then .ok (some (.assigning first.line), i + 2)
  else if c.isPunct 0 '*' then .ok (exported ts (i + 1) (ExportDecl.readAll first.line (place ts (i + 2))))
  else
    let k := if c.isIdent 0 "type" && c.isPunct 1 '{' then place ts (i + 2) else c
    if k.isPunct 0 '{' then .ok (exported ts (i + 1) (ExportDecl.readNamed first.line k))
    else
      match ExportDecl.readDefault? first.line k with
      | some (d, c) => .ok (some (.exporting d), index ts c)
      | none => if k.isIdent 0 "import" || k.isIdent 0 "as" then .ok (none, index ts k + 1) else declaring source ts i

/-- the statement at index `i` -/
def statement (source : List Char) (ts : List Token) (i : Nat) : Except Fault (Option ModuleSummary.Item × Nat) :=
  match (place ts i).ident? 0 with
  | some w =>
    if w == "import" then importing ts i
    else if w == "export" then exporting source ts i
    else if ModuleSummary.declarationWords.contains w then declaring source ts i
    else .ok (none, i + 1)
  | none => if (place ts i).isPunct 0 '@' then declaring source ts i else .ok (none, i + 1)

/-- a statement may start at index `i` -/
def startsStatement (ts : List Token) (i : Nat) : Except Fault Bool := do
  match ← previous ts i with
  | none => .ok true
  | some prev =>
    let t ← token ts i
    .ok (ModuleSummary.startsStatement (some prev) t)

/-- the items of the statements from index `i` on, `depth` braces being open -/
def itemsFrom (source : List Char) (ts : List Token) (depth i : Nat) : Except Fault (List ModuleSummary.Item) :=
  if _hi : i < ts.length then
    if (place ts i).isPunct 0 '{' then itemsFrom source ts (depth + 1) (i + 1)
    else if (place ts i).isPunct 0 '}' then itemsFrom source ts (depth - 1) (i + 1)
    else do
      let starts ← if 0 < depth then .ok false else startsStatement ts i
      if starts then
        let (item, next) ← statement source ts i
        let more ← itemsFrom source ts depth (max next (i + 1))
        .ok (item.toList ++ more)
      else itemsFrom source ts depth (i + 1)
  else .ok []
termination_by ts.length - i

/-- the summary of tokens cut from `source` -/
def scan (source : List Char) (ts : List Token) : Except Fault ModuleSummary := do
  let classes ← classesFrom ts 0 ts
  let calls ← callsFrom ts 1 (ts.length - 1)
  let items ← itemsFrom source ts 0 0
  .ok (items.foldl ModuleSummary.add { classes := classes, calls := calls })

section

variable {source : List Char} {prev : Option Token} {t : Token} {rest : List Token}

theorem declaring_eq (h : (Cursor.start (Lexer.tokenize source)).Onward ⟨prev, t :: rest⟩) :
    declaring source (Lexer.tokenize source) (index (Lexer.tokenize source) ⟨prev, t :: rest⟩) =
      .ok (Prod.map id (index (Lexer.tokenize source)) (ModuleSummary.readDeclaration source ⟨prev, t :: rest⟩)) := by
  rw [declaring, declaration_eq h (List.cons_ne_nil t rest), ok_bind, ModuleSummary.readDeclaration]
  cases Declaration.read? source ⟨prev, t :: rest⟩ with
  | none => rw [← index_succ h]; rfl
  | some r => rfl

theorem importing_eq {ts : List Token} (h : (Cursor.start ts).Onward ⟨prev, t :: rest⟩) :
    importing ts (index ts ⟨prev, t :: rest⟩) =
      .ok (((ImportDecl.read t.line ⟨some t, rest⟩).1).map .importing,
        index ts (ImportDecl.read t.line ⟨some t, rest⟩).2) := by
  rw [importing, token_eq h, ok_bind, place_succ h]

/-- **An export is read without a fault.** -/
theorem exporting_eq (h : (Cursor.start (Lexer.tokenize source)).Onward ⟨prev, t :: rest⟩) :
    exporting source (Lexer.tokenize source) (index (Lexer.tokenize source) ⟨prev, t :: rest⟩) =
      .ok (Prod.map id (index (Lexer.tokenize source)) (ModuleSummary.readExport source t.line ⟨prev, t :: rest⟩)) := by
  have hdeclaring := declaring_eq h
  have hplace : place (Lexer.tokenize source) (index (Lexer.tokenize source) ⟨prev, t :: rest⟩ + 1) =
      Cursor.next ⟨prev, t :: rest⟩ := place_succ h
  have hindex : index (Lexer.tokenize source) (Cursor.next ⟨prev, t :: rest⟩) =
      index (Lexer.tokenize source) ⟨prev, t :: rest⟩ + 1 := index_succ h
  have hpass := h.next
  rw [exporting, token_eq h, ok_bind, hplace, ModuleSummary.readExport]
  generalize Cursor.next ⟨prev, t :: rest⟩ = c at *
  generalize index (Lexer.tokenize source) ⟨prev, t :: rest⟩ = i at *
  generalize Lexer.tokenize source = ts at *
  -- the place behind the second token, if there is one
  have hsecond : c.rest ≠ [] → index ts c.next = i + 2 := fun hne => by rw [index_next hpass hne, hindex]
  have hplace₂ : c.rest ≠ [] → place ts (i + 2) = c.next := fun hne => by rw [← hsecond hne, place_index hpass.next]
  have hfound : ∀ r : Option (Option ExportDecl × Cursor), exported ts (i + 1) r = Prod.map id (index ts) (match r with
      | some (d, c) => (d.map .exporting, c)
      | none => (none, c)) := by
    rintro (- | r)
    · exact Prod.ext rfl hindex.symm
    · rfl
  dsimp only
  by_cases hequals : c.isPunct 0 '=' = true
  · rw [if_pos hequals, if_pos hequals, ← hsecond (Cursor.rest_ne_nil_of_isPunct hequals)]
    rfl
  rw [if_neg hequals, if_neg hequals]
  by_cases hstar : c.isPunct 0 '*' = true
  · rw [if_pos hstar, if_pos hstar, hplace₂ (Cursor.rest_ne_nil_of_isPunct hstar)]
    exact congrArg Except.ok (hfound _)
  rw [if_neg hstar, if_neg hstar]
  -- the place of the braces, behind the word `type` if there is one
  have htype : (if c.isIdent 0 "type" && c.isPunct 1 '{' then place ts (i + 2) else c) = if c.isIdent 0 "type" &&
      c.isPunct 1 '{' then c.next else c := by
    split_ifs with htype
    · exact hplace₂ (Cursor.rest_ne_nil_of_isIdent (Bool.and_eq_true_iff.1 htype).1)
    · rfl
  have honward : (Cursor.start ts).Onward (if c.isIdent 0 "type" && c.isPunct 1 '{' then c.next else c) :=
    hpass.ite_next _
  rw [htype]
  generalize (if c.isIdent 0 "type" && c.isPunct 1 '{' then c.next else c) = k at honward
  by_cases hbraces : k.isPunct 0 '{' = true
  · rw [if_pos hbraces, if_pos hbraces]
    exact congrArg Except.ok (hfound _)
  rw [if_neg hbraces, if_neg hbraces]
  cases ExportDecl.readDefault? t.line k with
  | some r => rfl
  | none =>
    by_cases hword : (k.isIdent 0 "import" || k.isIdent 0 "as") = true
    · have hne : k.rest ≠ [] := by
        rcases Bool.or_eq_true_iff.1 hword with hword | hword
        · exact Cursor.rest_ne_nil_of_isIdent hword
        · exact Cursor.rest_ne_nil_of_isIdent hword
      simp only [hword, if_true, Prod.map, id, index_next honward hne]
    · simp only [hword, if_false, hdeclaring, Bool.false_eq_true]

/-- **A statement is read without a fault.** -/
theorem statement_eq (h : (Cursor.start (Lexer.tokenize source)).Onward ⟨prev, t :: rest⟩) :
    statement source (Lexer.tokenize source) (index (Lexer.tokenize source) ⟨prev, t :: rest⟩) =
      .ok (Prod.map id (index (Lexer.tokenize source)) (ModuleSummary.readStatement source t ⟨prev, t :: rest⟩)) := by
  have hpass : (none, index (Lexer.tokenize source) ⟨prev, t :: rest⟩ + 1) =
      Prod.map id (index (Lexer.tokenize source)) ((none : Option ModuleSummary.Item),
        Cursor.next ⟨prev, t :: rest⟩) := by
    rw [← index_succ h]
    rfl
  rw [statement, place_index h, ModuleSummary.readStatement]
  obtain ⟨kind, start, stop, line⟩ := t
  -- only a word or an at sign starts a statement that is read
  cases kind with
  | ident w =>
    change (if w == "import" then _ else _) = _
    dsimp only
    split_ifs
    · rw [importing_eq h]; rfl
    · exact exporting_eq h
    · exact declaring_eq h
    · rw [hpass]
  | punct ch =>
    have hat : Cursor.isPunct ⟨prev, ⟨.punct ch, start, stop, line⟩ :: rest⟩ 0 '@' = (ch == '@') := by
      simp [Cursor.isPunct, Token.isPunct]
    change (if _ then _ else _) = _
    rw [hat]
    dsimp only
    split_ifs
    · exact declaring_eq h
    · rw [hpass]
  | str => exact congrArg Except.ok hpass
  | template => exact congrArg Except.ok hpass
  | number => exact congrArg Except.ok hpass
  | regex => exact congrArg Except.ok hpass
  | doc => exact congrArg Except.ok hpass

theorem startsStatement_eq {ts : List Token} (h : (Cursor.start ts).Onward ⟨prev, t :: rest⟩) :
    startsStatement ts (index ts ⟨prev, t :: rest⟩) = .ok (ModuleSummary.startsStatement prev t) := by
  rw [startsStatement, previous_eq h, ok_bind]
  cases prev with
  | none => rfl
  | some p => rw [token_eq h]; rfl

theorem itemsFrom_step (h : (Cursor.start (Lexer.tokenize source)).Onward ⟨prev, t :: rest⟩) (depth : Nat) :
    itemsFrom source (Lexer.tokenize source) depth (index (Lexer.tokenize source) ⟨prev, t :: rest⟩) =
      if t.isPunct '{' then itemsFrom source (Lexer.tokenize source) (depth + 1)
        (index (Lexer.tokenize source) ⟨some t, rest⟩)
      else if t.isPunct '}' then
        itemsFrom source (Lexer.tokenize source) (depth - 1) (index (Lexer.tokenize source) ⟨some t, rest⟩)
      else if 0 < depth || !ModuleSummary.startsStatement prev t then
        itemsFrom source (Lexer.tokenize source) depth (index (Lexer.tokenize source) ⟨some t, rest⟩)
      else
        (itemsFrom source (Lexer.tokenize source) depth
          (max (index (Lexer.tokenize source) (ModuleSummary.readStatement source t ⟨prev, t :: rest⟩).2)
            (index (Lexer.tokenize source) ⟨some t, rest⟩))).map
          ((ModuleSummary.readStatement source t ⟨prev, t :: rest⟩).1.toList ++ ·) := by
  have hhead : ∀ ch : Char, Cursor.isPunct ⟨prev, t :: rest⟩ 0 ch = t.isPunct ch := fun ch => rfl
  rw [itemsFrom, dif_pos (index_lt h (List.cons_ne_nil t rest)), place_index h, hhead, hhead, ← index_succ h]
  rw [startsStatement_eq h, statement_eq h]
  by_cases hdepth : 0 < depth
  · simp [hdepth, ok_bind]
  · cases hstarts : ModuleSummary.startsStatement prev t with
    | false => simp [hdepth, ok_bind]
    | true =>
      simp only [hdepth, ok_bind, Bool.not_true, Bool.or_false, decide_false, Bool.false_eq_true, if_false,
        if_true, Prod.map]
      cases itemsFrom source (Lexer.tokenize source) depth (max _ _) <;> rfl

/-- **Statements are read without a fault.** -/
theorem itemsFrom_eq (depth : Nat) (c : Cursor) : (Cursor.start (Lexer.tokenize source)).Onward c →
    itemsFrom source (Lexer.tokenize source) depth (index (Lexer.tokenize source) c) =
      .ok (ModuleSummary.itemsFrom source depth c) := by
  fun_induction ModuleSummary.itemsFrom source depth c with
  | case1 depth c hrest =>
    intro h
    have hlast : ¬ index (Lexer.tokenize source) c < (Lexer.tokenize source).length := by
      have hsum := index_add_ahead h
      simp only [Cursor.ahead, hrest, List.length_nil] at hsum
      omega
    rw [itemsFrom, dif_neg hlast]
  | case2 depth c t ts hrest hopen ih =>
    intro h
    obtain ⟨prev, rest⟩ := c
    obtain rfl : rest = t :: ts := hrest
    rw [itemsFrom_step h, if_pos hopen]
    exact ih h.pass
  | case3 depth c t ts hrest hopen hclose ih =>
    intro h
    obtain ⟨prev, rest⟩ := c
    obtain rfl : rest = t :: ts := hrest
    rw [itemsFrom_step h, if_neg hopen, if_pos hclose]
    exact ih h.pass
  | case4 depth c t ts hrest hopen hclose hskip ih =>
    intro h
    obtain ⟨prev, rest⟩ := c
    obtain rfl : rest = t :: ts := hrest
    rw [itemsFrom_step h, if_neg hopen, if_neg hclose, if_pos hskip]
    exact ih h.pass
  | case5 depth c t ts hrest hopen hclose hskip read hlt ih =>
    intro h
    obtain ⟨prev, rest⟩ := c
    obtain rfl : rest = t :: ts := hrest
    have hread : (Cursor.start (Lexer.tokenize source)).Onward read.2 :=
      (ModuleSummary.within_readStatement h source t).1
    -- the statement went further than its first token, so the larger index is where it ended
    have hmax : index (Lexer.tokenize source) ⟨some t, ts⟩ ≤ index (Lexer.tokenize source) read.2 :=
      index_le_index h.pass hread (Nat.le_of_lt_succ hlt)
    rw [itemsFrom_step h, if_neg hopen, if_neg hclose, if_neg hskip, max_eq_left hmax, ih hread]
    rfl
  | case6 depth c t ts hrest hopen hclose hskip read hlt ih =>
    intro h
    obtain ⟨prev, rest⟩ := c
    obtain rfl : rest = t :: ts := hrest
    have hread : (Cursor.start (Lexer.tokenize source)).Onward read.2 :=
      (ModuleSummary.within_readStatement h source t).1
    -- nothing was read, and the larger index is one token on
    have hmax : index (Lexer.tokenize source) read.2 ≤ index (Lexer.tokenize source) ⟨some t, ts⟩ :=
      index_le_index hread h.pass (Nat.le_of_succ_le (Nat.le_of_not_lt hlt))
    rw [itemsFrom_step h, if_neg hopen, if_neg hclose, if_neg hskip, max_eq_right hmax, ih h.pass]
    rfl

/-- **The summary of a text is read without a fault.** -/
theorem scan_eq (source : List Char) :
    scan source (Lexer.tokenize source) = .ok (ModuleSummary.ofTokens source (Lexer.tokenize source)) := by
  have hstart : index (Lexer.tokenize source) (Cursor.start (Lexer.tokenize source)) = 0 := Nat.sub_self _
  have hclasses := classesFrom_eq (Lexer.tokenize source) none .refl
  have hitems := itemsFrom_eq 0 (Cursor.start (Lexer.tokenize source)) .refl
  rw [hstart] at hitems
  have hcalls : callsFrom (Lexer.tokenize source) 1 ((Lexer.tokenize source).length - 1) =
      .ok (ModuleSummary.callsFrom (Lexer.tokenize source)) := by
    cases hts : Lexer.tokenize source with
    | nil => rfl
    | cons p rest =>
      have hfirst : (Cursor.start (p :: rest)).Onward ⟨some p, rest⟩ := Cursor.Onward.refl.pass
      have hindex : index (p :: rest) ⟨some p, rest⟩ = 1 := by simp [index, Cursor.ahead]
      have hall := callsFrom_eq rest p hfirst
      rwa [hindex] at hall
  change classesFrom _ (index _ (Cursor.start _)) _ = _ at hclasses
  rw [hstart] at hclasses
  rw [scan, hclasses, ok_bind, hcalls, ok_bind, hitems]
  rfl

end

end ClosurePipeline.Indexed
