/-
A cursor in a token list: the token just passed and the tokens ahead. Readers move it on and look ahead; looking past
the end finds nothing.

- `Cursor.enclosed?`: the tokens between a bracket and its partner; only brackets of the same shape count;
- `Cursor.typeArguments`: the tokens of a `<...>` list; the arrow of a function type closes nothing;
- `Cursor.dottedName?`: a name with dots. Each of them leaves the cursor no further back than it was, and the first and
  last further on.
-/
import ClosurePipeline.Token.Basic

namespace ClosurePipeline

/-- a place between tokens -/
structure Cursor where
  prev : Option Token
  rest : List Token
deriving DecidableEq, Repr

namespace Cursor

/-- the place before all tokens -/
def start (ts : List Token) : Cursor := ⟨none, ts⟩

/-- how many tokens are ahead -/
def ahead (c : Cursor) : Nat := c.rest.length

/-- one token on -/
def next (c : Cursor) : Cursor :=
  match c.rest with
  | [] => c
  | t :: ts => ⟨some t, ts⟩

/-- `n` tokens on -/
def skip (c : Cursor) : Nat → Cursor
  | 0 => c
  | n + 1 => c.next.skip n

/-- the name `k` tokens ahead -/
def ident? (c : Cursor) (k : Nat) : Option String := (c.rest[k]?).bind Token.ident?

/-- the string `k` tokens ahead -/
def str? (c : Cursor) (k : Nat) : Option String := (c.rest[k]?).bind Token.str?

/-- the name or string `k` tokens ahead -/
def name? (c : Cursor) (k : Nat) : Option String := (c.rest[k]?).bind Token.name?

/-- the word `w` is `k` tokens ahead -/
def isIdent (c : Cursor) (k : Nat) (w : String) : Bool := c.ident? k == some w

/-- the character `ch` is `k` tokens ahead -/
def isPunct (c : Cursor) (k : Nat) (ch : Char) : Bool := ((c.rest[k]?).map (·.isPunct ch)).getD false

@[simp] theorem ahead_next_le (c : Cursor) : c.next.ahead ≤ c.ahead := by
  cases c with
  | mk prev rest => cases rest <;> simp [next, ahead]

theorem ahead_skip_one_lt (c : Cursor) (h : c.rest ≠ []) : (c.skip 1).ahead < c.ahead := by
  cases c with
  | mk prev rest =>
    cases rest with
    | nil => exact absurd rfl h
    | cons t ts => simp [skip, next, ahead]

theorem rest_ne_nil_of_ident? {c : Cursor} {s : String} (h : c.ident? 0 = some s) : c.rest ≠ [] := by
  intro e
  simp [ident?, e] at h

theorem rest_ne_nil_of_isPunct {c : Cursor} {ch : Char} (h : c.isPunct 0 ch = true) : c.rest ≠ [] := by
  intro e
  simp [isPunct, e] at h

theorem rest_ne_nil_of_isIdent {c : Cursor} {w : String} (h : c.isIdent 0 w = true) : c.rest ≠ [] := by
  intro e
  simp [isIdent, ident?, e] at h

/-- a bracketed stretch: what is inside, the closing bracket, and the place behind it -/
structure Enclosed where
  inner : List Token
  close : Token
  after : Cursor
deriving DecidableEq, Repr

/-- the stretch up to the bracket that closes, `depth` more being open inside -/
def closing (opening closer : Char) : Nat → List Token → Option Enclosed
  | _, [] => none
  | depth, t :: ts =>
    if t.isPunct opening then (closing opening closer (depth + 1) ts).map fun e => { e with inner := t :: e.inner }
    else if t.isPunct closer then
      match depth with
      | 0 => some ⟨[], t, ⟨some t, ts⟩⟩
      | depth + 1 => (closing opening closer depth ts).map fun e => { e with inner := t :: e.inner }
    else (closing opening closer depth ts).map fun e => { e with inner := t :: e.inner }

/-- the stretch between the bracket ahead, which is `opening`, and its partner -/
def enclosed? (opening closer : Char) (c : Cursor) : Option Enclosed :=
  match c.rest with
  | t :: ts => if t.isPunct opening then closing opening closer 0 ts else none
  | [] => none

theorem ahead_closing_lt {opening closer : Char} {depth : Nat} {ts : List Token} {e : Enclosed}
    (h : closing opening closer depth ts = some e) : e.after.ahead < ts.length := by
  induction ts generalizing depth e with
  | nil => simp [closing] at h
  | cons t ts ih =>
    simp only [closing] at h
    split at h
    · obtain ⟨e', h', rfl⟩ := Option.map_eq_some_iff.1 h
      have := ih h'
      simp only [List.length_cons]
      omega
    · split at h
      · split at h
        · simp only [Option.some.injEq] at h
          subst h
          simp [ahead]
        · obtain ⟨e', h', rfl⟩ := Option.map_eq_some_iff.1 h
          have := ih h'
          simp only [List.length_cons]
          omega
      · obtain ⟨e', h', rfl⟩ := Option.map_eq_some_iff.1 h
        have := ih h'
        simp only [List.length_cons]
        omega

theorem ahead_enclosed?_lt {opening closer : Char} {c : Cursor} {e : Enclosed}
    (h : enclosed? opening closer c = some e) :
    e.after.ahead < c.ahead := by
  cases c with
  | mk prev rest =>
    cases rest with
    | nil => simp [enclosed?] at h
    | cons t ts =>
      simp only [enclosed?] at h
      split at h
      · exact Nat.lt_succ_of_lt (ahead_closing_lt h)
      · simp at h

/-- a closing angle glued to an equals sign is an arrow -/
def isArrowHead (prev : Option Token) (t : Token) : Bool :=
  match prev with
  | some p => p.isPunct '=' && p.stop == t.start
  | none => false

/-- the tokens up to the angle that closes, `depth` being open, and the place behind them -/
def anglesFrom (prev : Option Token) : Nat → List Token → List Token × Cursor
  | _, [] => ([], ⟨prev, []⟩)
  | depth, t :: ts =>
    if t.isPunct '<' then let (skipped, c) := anglesFrom (some t) (depth + 1) ts; (t :: skipped, c)
    else if t.isPunct '>' && !isArrowHead prev t then
      if depth = 1 then ([t], ⟨some t, ts⟩)
      else let (skipped, c) := anglesFrom (some t) (depth - 1) ts; (t :: skipped, c)
    else let (skipped, c) := anglesFrom (some t) depth ts; (t :: skipped, c)

/-- the tokens of a type argument list, if one is ahead, and the place behind it; without an end it goes to the end of
all -/
def typeArguments (c : Cursor) : List Token × Cursor := if c.isPunct 0 '<' then anglesFrom c.prev 0 c.rest else ([], c)

theorem ahead_anglesFrom_le (prev : Option Token) (depth : Nat) (ts : List Token) :
    (anglesFrom prev depth ts).2.ahead ≤ ts.length := by
  induction ts generalizing prev depth with
  | nil => simp [anglesFrom, ahead]
  | cons t ts ih =>
    simp only [anglesFrom]
    split
    · exact Nat.le_succ_of_le (ih _ _)
    · split
      · split
        · simp [ahead]
        · exact Nat.le_succ_of_le (ih _ _)
      · exact Nat.le_succ_of_le (ih _ _)

theorem ahead_typeArguments_le (c : Cursor) : (typeArguments c).2.ahead ≤ c.ahead := by
  unfold typeArguments
  split
  · exact ahead_anglesFrom_le _ _ _
  · exact Nat.le_refl _

/-- the place behind a type argument list, if one is ahead -/
def skipTypeArguments (c : Cursor) : Cursor := c.typeArguments.2

theorem ahead_skipTypeArguments_le (c : Cursor) : c.skipTypeArguments.ahead ≤ c.ahead := ahead_typeArguments_le c

/-- the parts of a dotted name behind its first -/
def dottedParts (prev : Option Token) : List Token → List String × Cursor
  | dot :: part :: ts =>
    if dot.isPunct '.' then
      match part.ident? with
      | some s => let (parts, c) := dottedParts (some part) ts; (s :: parts, c)
      | none => ([], ⟨prev, dot :: part :: ts⟩)
    else ([], ⟨prev, dot :: part :: ts⟩)
  | ts => ([], ⟨prev, ts⟩)

/-- a dotted name ahead, and the place behind it -/
def dottedName? (c : Cursor) : Option (String × Cursor) :=
  match c.ident? 0 with
  | none => none
  | some first =>
    let (parts, after) := dottedParts c.next.prev c.next.rest; some (".".intercalate (first :: parts), after)

theorem ahead_dottedParts_le (prev : Option Token) (ts : List Token) : (dottedParts prev ts).2.ahead ≤ ts.length := by
  fun_induction dottedParts prev ts with
  | case1 prev dot part ts hdot s hs parts c hrec ih => rw [hrec] at ih; simp only [List.length_cons] at ih ⊢; omega
  | case2 => simp [ahead]
  | case3 => simp [ahead]
  | case4 => simp [ahead]

theorem ahead_dottedName?_lt {c c' : Cursor} {s : String} (h : dottedName? c = some (s, c')) : c'.ahead < c.ahead := by
  unfold dottedName? at h
  split at h
  · simp at h
  · rename_i first hf
    have hn := rest_ne_nil_of_ident? hf
    simp only [Option.some.injEq, Prod.mk.injEq] at h
    obtain ⟨-, rfl⟩ := h
    exact Nat.lt_of_le_of_lt (ahead_dottedParts_le _ _) (ahead_skip_one_lt c hn)

end Cursor

end ClosurePipeline
