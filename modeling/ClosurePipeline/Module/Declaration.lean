/-
Top-level declarations: decorators, modifiers, the kind and name, type parameters, heritage, and the braces of a body.
Reading stops in front of the body, so that whoever counts braces still sees it.
-/
import ClosurePipeline.Module.Cursor
import ClosurePipeline.Module.Summary
import ClosurePipeline.Text.Measure

namespace ClosurePipeline

namespace Decorator

/-- a decorator at its at sign, and the place behind it -/
def read? (source : List Char) (c : Cursor) : Option (Decorator × Cursor) := do
  let first ← c.rest.head?
  let (name, after) ← c.next.dottedName?
  if after.isPunct 0 '(' then
    let opening ← after.rest.head?
    let e ← after.enclosed? '(' ')'
    let arguments := String.ofList (Text.slice source opening.stop e.close.start)
    some (⟨name, some arguments, ⟨first.start, e.close.stop⟩, first.line⟩, e.after)
  else
    let last ← after.prev
    some (⟨name, none, ⟨first.start, last.stop⟩, first.line⟩, after)

theorem ahead_read?_lt {source : List Char} {c c' : Cursor} {d : Decorator} (h : read? source c = some (d, c')) :
    c'.ahead < c.ahead := by
  unfold read? at h
  cases hf : c.rest.head? with
  | none => simp [hf] at h
  | some first =>
    cases hn : c.next.dottedName? with
    | none => simp [hf, hn] at h
    | some r =>
      obtain ⟨name, after⟩ := r
      have h1 := Cursor.ahead_dottedName?_lt hn
      have h2 := c.ahead_next_le
      by_cases hp : after.isPunct 0 '(' = true
      · cases he : after.enclosed? '(' ')' with
        | none => cases ho : after.rest.head? <;> simp [hf, hn, hp, ho, he] at h
        | some e =>
          have h3 := Cursor.ahead_enclosed?_lt he
          cases ho : after.rest.head? with
          | none => simp [hf, hn, hp, ho] at h
          | some opening =>
            simp [hf, hn, hp, ho, he] at h
            rw [← h.2]
            omega
      · cases hl : after.prev with
        | none => simp [hf, hn, hp, hl] at h
        | some last =>
          simp [hf, hn, hp, hl] at h
          rw [← h.2]
          omega

/-- the decorators ahead; nothing if one of them is broken -/
def readAll? (source : List Char) (c : Cursor) : Option (List Decorator × Cursor) :=
  if c.isPunct 0 '@' then
    match _h : read? source c with
    | none => none
    | some (d, c') => (readAll? source c').map fun (ds, c) => (d :: ds, c)
  else some ([], c)
termination_by c.ahead
decreasing_by exact ahead_read?_lt _h

end Decorator

namespace Heritage

/-- types divided by commas, with what each is applied to left out -/
def readTypes (c : Cursor) : List String × Cursor :=
  match _h : c.dottedName? with
  | none => ([], c)
  | some (name, c1) =>
    if c1.skipTypeArguments.isPunct 0 '(' then
      match _h2 : c1.skipTypeArguments.enclosed? '(' ')' with
      | none => ([name], c1.skipTypeArguments)
      | some e =>
        if e.after.isPunct 0 ',' then let (names, c) := readTypes e.after.next; (name :: names, c)
        else ([name], e.after)
    else if c1.skipTypeArguments.isPunct 0 ',' then
      let (names, c) := readTypes c1.skipTypeArguments.next
      (name :: names, c)
    else ([name], c1.skipTypeArguments)
termination_by c.ahead
decreasing_by
  · have h1 := Cursor.ahead_dottedName?_lt _h
    have h2 := Cursor.ahead_skipTypeArguments_le c1
    have h3 := Cursor.ahead_enclosed?_lt _h2
    have h4 := e.after.ahead_next_le
    omega
  · have h1 := Cursor.ahead_dottedName?_lt _h
    have h2 := Cursor.ahead_skipTypeArguments_le c1
    have h4 := c1.skipTypeArguments.ahead_next_le
    omega

theorem ahead_readTypes_le (c : Cursor) : (readTypes c).2.ahead ≤ c.ahead := by
  fun_induction readTypes c with
  | case1 => exact Nat.le_refl _
  | case2 c name c1 h hp h2 =>
    have h1 := Cursor.ahead_dottedName?_lt h
    have h2 := Cursor.ahead_skipTypeArguments_le c1
    simp only
    omega
  | case3 c name c1 h hp e h2 hc names c3 hr ih =>
    have h1 := Cursor.ahead_dottedName?_lt h
    have h3 := Cursor.ahead_skipTypeArguments_le c1
    have h4 := Cursor.ahead_enclosed?_lt h2
    have h5 := e.after.ahead_next_le
    rw [hr] at ih
    simp only at ih ⊢
    omega
  | case4 c name c1 h hp e h2 hc =>
    have h1 := Cursor.ahead_dottedName?_lt h
    have h3 := Cursor.ahead_skipTypeArguments_le c1
    have h4 := Cursor.ahead_enclosed?_lt h2
    simp only
    omega
  | case5 c name c1 h hp hc names c3 hr ih =>
    have h1 := Cursor.ahead_dottedName?_lt h
    have h3 := Cursor.ahead_skipTypeArguments_le c1
    have h5 := c1.skipTypeArguments.ahead_next_le
    rw [hr] at ih
    simp only at ih ⊢
    omega
  | case6 c name c1 h hp hc =>
    have h1 := Cursor.ahead_dottedName?_lt h
    have h3 := Cursor.ahead_skipTypeArguments_le c1
    simp only
    omega

/-- the `extends` and `implements` lists ahead, in any order and number -/
def read (h : Heritage) (c : Cursor) : Heritage × Cursor :=
  if _he : c.isIdent 0 "extends" then
    read { h with extended := h.extended ++ (readTypes c.next).1 } (readTypes c.next).2
  else if _hi : c.isIdent 0 "implements" then
    read { h with implemented := h.implemented ++ (readTypes c.next).1 } (readTypes c.next).2
  else (h, c)
termination_by c.ahead
decreasing_by
  · have h1 := ahead_readTypes_le c.next
    have h2 := c.ahead_skip_one_lt (Cursor.rest_ne_nil_of_isIdent _he)
    simp only [Cursor.skip] at h2
    omega
  · have h1 := ahead_readTypes_le c.next
    have h2 := c.ahead_skip_one_lt (Cursor.rest_ne_nil_of_isIdent _hi)
    simp only [Cursor.skip] at h2
    omega

end Heritage

namespace Declaration

/-- the words in front of a declaration -/
structure Modifiers where
  exported : Bool := false
  isDefault : Bool := false
  ambient : Bool := false
deriving DecidableEq, Repr

/-- the modifiers with the word ahead added, if it is one; `const` is one in front of `enum` -/
def Modifiers.add? (m : Modifiers) (c : Cursor) : Option Modifiers :=
  match c.ident? 0 with
  | some "export" => some { m with exported := true }
  | some "default" => if m.exported then some { m with isDefault := true } else none
  | some "declare" => some { m with ambient := true }
  | some "abstract" => some m
  | some "async" => some m
  | some "const" => if c.isIdent 1 "enum" then some m else none
  | _ => none

theorem Modifiers.rest_ne_nil_of_add? {m m' : Modifiers} {c : Cursor} (h : m.add? c = some m') : c.rest ≠ [] := by
  intro e
  simp [add?, Cursor.ident?, e] at h

/-- the modifiers ahead -/
def Modifiers.read (m : Modifiers) (c : Cursor) : Modifiers × Cursor :=
  match _h : m.add? c with
  | some m' => Modifiers.read m' c.next
  | none => (m, c)
termination_by c.ahead
decreasing_by
  have := c.ahead_skip_one_lt (Modifiers.rest_ne_nil_of_add? _h)
  simpa [Cursor.skip] using this

/-- the kind a word starts -/
def kindOf? : String → Option DeclKind
  | "class" => some .classDecl
  | "function" => some .functionDecl
  | "interface" => some .interfaceDecl
  | "type" => some .typeAlias
  | "enum" => some .enumDecl
  | "const" => some .variableDecl
  | "let" => some .variableDecl
  | "var" => some .variableDecl
  | _ => none

/-- the name of a declaration and the place behind it; a default class or function may have none and is then called
`default` -/
def readName? (kind : DeclKind) (isDefault : Bool) (c : Cursor) : Option (String × Cursor) :=
  let unnamed := if isDefault && (kind == .classDecl || kind == .functionDecl) then some ("default", c) else none
  match c.ident? 0 with
  | some word =>
    if kind == .classDecl && (word == "extends" || word == "implements") then unnamed else some (word, c.next)
  | none => unnamed

/-- a token that opens a bracket -/
def opens (t : Token) : Bool := t.isPunct '{' || t.isPunct '(' || t.isPunct '['

/-- a token that closes a bracket -/
def closes (t : Token) : Bool := t.isPunct '}' || t.isPunct ')' || t.isPunct ']'

/-- a member may start behind `prev` -/
def startsMember (prev t : Token) : Bool :=
  prev.isPunct '{' || prev.isPunct ';' || prev.isPunct ',' || prev.isIdent "readonly" || prev.isDoc ||
    decide (prev.line < t.line)

/-- a name in front of this token is a member's -/
def declaresMember : Option Token → Bool
  | none => false
  | some t => t.isPunct '?' || t.isPunct ':' || t.isPunct '(' || t.isPunct '<'

/-- the member a token names at the outer level of an interface -/
def member? (prev t : Token) (ts : List Token) : Option String :=
  if startsMember prev t && declaresMember ts.head? then t.name? else none

/-- the members of an interface, each once; `depth` is one at the outer level -/
def membersFrom (prev : Token) (depth : Nat) (found : List String) : List Token → List String
  | [] => found
  | t :: ts =>
    if opens t then membersFrom t (depth + 1) found ts
    else if closes t then membersFrom t (depth - 1) found ts
    else
      let found := match if depth = 1 then member? prev t ts else none with
        | some m => if found.contains m then found else found ++ [m]
        | none => found
      membersFrom t depth found ts

/-- the body ahead and, of an interface, its members -/
def readBody (kind : DeclKind) (c : Cursor) : Option Span × List String :=
  let braced := kind == .classDecl || kind == .interfaceDecl || kind == .enumDecl
  match if braced then c.rest.head? else none, if braced then c.enclosed? '{' '}' else none with
  | some opening, some e =>
    (some ⟨opening.start, e.close.stop⟩, if kind == .interfaceDecl then membersFrom opening 1 [] e.inner else [])
  | _, _ => (none, [])

/-- the comment a token is, if it is one -/
def docOf? (t : Token) : Option DocComment :=
  match t.kind with
  | .doc text => some (.ofText text ⟨t.start, t.stop⟩)
  | _ => none

/-- the class or interface lists ahead; other kinds have none -/
def readHeritage (kind : DeclKind) (c : Cursor) : Heritage × Cursor :=
  if kind == .classDecl || kind == .interfaceDecl then Heritage.read {} c else ({}, c)

/-- the rest of a declaration behind the word that gives its kind. `none` stands for a `type` that is no alias. -/
def readRest (kind : DeclKind) (mods : Modifiers) (decorators : List Decorator) (start : Cursor) (first : Token)
    (c : Cursor) :
    Option (Option Declaration × Cursor) :=
  let c := if kind == .functionDecl && c.isPunct 0 '*' then c.next else c
  match readName? kind mods.isDefault c with
  | none => some (none, c)
  | some (name, c) =>
    if kind == .typeAlias && !(c.isPunct 0 '=' || c.isPunct 0 '<') then none
    else
      let (heritage, c) := readHeritage kind c.skipTypeArguments
      let (body, members) := readBody kind c
      some (some {
        name := name
        kind := kind
        exported := mods.exported
        isDefault := mods.isDefault
        ambient := mods.ambient
        doc := start.prev.bind docOf?
        decorators := decorators
        heritage := heritage
        members := members
        body := body
        start := first.start
        line := first.line }, c)

/-- a declaration at its first token: what it declares, if it is summarised, and the place to go on from -/
def read? (source : List Char) (start : Cursor) : Option (Option Declaration × Cursor) := do
  let first ← start.rest.head?
  let (decorators, c) ← Decorator.readAll? source start
  let (mods, c) := Modifiers.read {} c
  match (c.ident? 0).bind kindOf? with
  | none => some (none, c)
  | some kind => readRest kind mods decorators start first c.next

end Declaration

end ClosurePipeline
