/-
Tokens by index. The readers of a summary look at tokens through a cursor, which finds nothing past either end. Here the
same tokens are read by index: where a reader looks ahead in case there is a token, a cursor is put at the index; where
it knows that there is one, the access fails if there is none, and so does a cut of the text that is not between
characters. Readings that never fail give what the readers give.

- `token`, `tokenBefore`, `previous`, `tokens`, `text`: the accesses, with what each of them gives at a place further
  on;
- `index`, `place`: a place as a number, and back; `place_index`;
- `skipTypes`, `callParen`: type argument lists by index; `skipTypes_eq`, `callParen_eq`;
- `classesFrom`, `callsFrom`: classes and calls anywhere; `classesFrom_eq`, `callsFrom_eq`.
-/
import Mathlib.Tactic
import ClosurePipeline.Proofs.Module.Laid
import ClosurePipeline.Proofs.Token.Tiling

namespace ClosurePipeline.Indexed

/-! ## Accesses -/

/-- an access that finds no token, or a cut that is not between characters -/
inductive Fault where
  | token (i : Nat)
  | tokens (start stop : Nat)
  | text (start stop : Nat)
deriving DecidableEq, Repr

section

variable {α β : Type}

theorem ok_bind (a : α) (f : α → Except Fault β) : (Except.ok a >>= f) = f a := pure_bind a f

theorem bind_eq_ok {x : Except Fault α} {f : α → Except Fault β} {b : β} (h : (x >>= f) = .ok b) :
    ∃ a, x = .ok a ∧ f a = .ok b := by
  cases x with
  | error e => cases h
  | ok a => exact ⟨a, rfl, h⟩

end

/-- the token at an index -/
def token (ts : List Token) (i : Nat) : Except Fault Token :=
  match ts[i]? with
  | some t => .ok t
  | none => .error (.token i)

/-- the token one index back; there is no index in front of the first -/
def tokenBefore (ts : List Token) : Nat → Except Fault Token
  | 0 => .error (.token 0)
  | i + 1 => token ts i

/-- the token one index back, if the index is not the first -/
def previous (ts : List Token) : Nat → Except Fault (Option Token)
  | 0 => .ok none
  | i + 1 => (token ts i).map some

/-- the tokens from an index on and in front of another one -/
def tokens (ts : List Token) (start stop : Nat) : Except Fault (List Token) :=
  if start ≤ stop ∧ stop ≤ ts.length then .ok ((ts.take stop).drop start) else .error (.tokens start stop)

/-- the byte `n` is in front of a character, or at the end -/
def isBoundary (n : Nat) : List Char → Bool
  | [] => n == 0
  | c :: cs => n == 0 || decide (c.utf8Size ≤ n) && isBoundary (n - c.utf8Size) cs

/-- the text between two bytes -/
def text (source : List Char) (start stop : Nat) : Except Fault (List Char) :=
  if start ≤ stop ∧ isBoundary start source = true ∧
    isBoundary stop source = true then .ok (Text.slice source start stop)
  else .error (.text start stop)

theorem isBoundary_of_onBoundary {cs : List Char} {n : Nat} (h : Lexer.OnBoundary cs n) : isBoundary n cs = true := by
  obtain ⟨before, behind, rfl, rfl⟩ := h
  induction before with
  | nil => cases behind <;> simp [isBoundary, Text.byteLength_nil]
  | cons c before ih => simp [isBoundary, Text.byteLength_cons, ih]

/-! ## Places -/

/-- how many tokens are passed at a place -/
def index (ts : List Token) (c : Cursor) : Nat := ts.length - c.ahead

/-- the place in front of the token at an index -/
def place (ts : List Token) (i : Nat) : Cursor := ⟨(ts.take i).getLast?, ts.drop i⟩

section

variable {ts rest : List Token} {c c' : Cursor} {prev : Option Token} {t p : Token}

theorem ahead_place (ts : List Token) (i : Nat) : (place ts i).ahead = ts.length - i := List.length_drop

theorem lt_length_of_rest {i : Nat} (h : (place ts i).rest ≠ []) : i < ts.length := by
  by_contra hno
  exact h (List.drop_eq_nil_of_le (Nat.le_of_not_lt hno))

/-- the tokens passed at a place further on, and their number -/
theorem exists_passed (h : (Cursor.start ts).Onward c) :
    ∃ passed, ts = passed ++ c.rest ∧ c.prev = passed.getLast? ∧ index ts c = passed.length := by
  obtain ⟨passed, hpassed⟩ := h.exists_passes
  have hts : ts = passed ++ c.rest := hpassed.rest
  refine ⟨passed, hts, by rw [hpassed.prev]; exact Option.or_none, ?_⟩
  have hlen := congrArg List.length hts
  rw [List.length_append] at hlen
  simp only [index, Cursor.ahead]
  omega

/-- **A place further on is the place at its index.** -/
theorem place_index (h : (Cursor.start ts).Onward c) : place ts (index ts c) = c := by
  obtain ⟨passed, hts, hprev, hindex⟩ := exists_passed h
  obtain ⟨prev, rest⟩ := c
  simp only at hts hprev
  rw [hindex, place, hts, List.take_left, List.drop_left, hprev]

theorem index_add_ahead (h : (Cursor.start ts).Onward c) : index ts c + c.ahead = ts.length := by
  obtain ⟨passed, hts, -, hindex⟩ := exists_passed h
  rw [hindex, Cursor.ahead, hts, List.length_append]

/-- the later of two places has the higher index -/
theorem index_le_index (h : (Cursor.start ts).Onward c) (h' : (Cursor.start ts).Onward c') (hle : c'.ahead ≤ c.ahead) :
    index ts c ≤ index ts c' := by
  have hsum := index_add_ahead h
  have hsum' := index_add_ahead h'
  omega

theorem index_lt (h : (Cursor.start ts).Onward c) (hne : c.rest ≠ []) : index ts c < ts.length := by
  have hsum := index_add_ahead h
  have hpos := List.length_pos_of_ne_nil hne
  simp only [Cursor.ahead] at hsum
  omega

theorem index_succ (h : (Cursor.start ts).Onward ⟨prev, t :: rest⟩) :
    index ts ⟨some t, rest⟩ = index ts ⟨prev, t :: rest⟩ + 1 := by
  have hsum := index_add_ahead h
  have hsum' := index_add_ahead h.pass
  simp only [Cursor.ahead, List.length_cons] at hsum hsum'
  omega

theorem place_succ (h : (Cursor.start ts).Onward ⟨prev, t :: rest⟩) :
    place ts (index ts ⟨prev, t :: rest⟩ + 1) = ⟨some t, rest⟩ := by
  rw [← index_succ h]
  exact place_index h.pass

theorem token_eq (h : (Cursor.start ts).Onward ⟨prev, t :: rest⟩) : token ts (index ts ⟨prev, t :: rest⟩) = .ok t := by
  obtain ⟨passed, hts, -, hindex⟩ := exists_passed h
  have hget : ts[passed.length]? = some t := by simp [hts]
  rw [hindex, token, hget]

theorem previous_eq (h : (Cursor.start ts).Onward c) : previous ts (index ts c) = .ok c.prev := by
  obtain ⟨passed, hts, hprev, hindex⟩ := exists_passed h
  rw [hindex, hprev]
  rcases List.eq_nil_or_concat passed with rfl | ⟨front, p, rfl⟩
  · rfl
  · have hget : ts[front.length]? = some p := by simp [hts]
    rw [List.concat_eq_append, List.length_append, List.length_singleton, List.getLast?_concat, previous, token, hget]
    rfl

theorem tokenBefore_eq (h : (Cursor.start ts).Onward c) (hp : c.prev = some p) :
    tokenBefore ts (index ts c) = .ok p := by
  have hprevious := previous_eq h
  rw [hp] at hprevious
  cases hindex : index ts c with
  | zero => rw [hindex] at hprevious; cases hprevious
  | succ i =>
    rw [hindex, previous] at hprevious
    rw [tokenBefore]
    cases htoken : token ts i with
    | error e => rw [htoken] at hprevious; cases hprevious
    | ok u => rw [htoken] at hprevious; cases hprevious; rfl

/-- the tokens between two places, the second further on than the first -/
theorem tokens_eq {passed : List Token} (h : (Cursor.start ts).Onward c) (h' : (Cursor.start ts).Onward c')
    (hpass : c.Passes passed c') :
    tokens ts (index ts c) (index ts c') = .ok passed := by
  obtain ⟨front, hts, -, hindex⟩ := exists_passed h
  have hindex' : index ts c' = front.length + passed.length := by
    have hsum := index_add_ahead h'
    have hlen := congrArg List.length hts
    rw [hpass.rest] at hlen
    simp only [List.length_append, Cursor.ahead] at hlen hsum
    omega
  have hall : ts = front ++ (passed ++ c'.rest) := hts.trans (by rw [hpass.rest])
  have hle : front.length + passed.length ≤ ts.length := by
    rw [hall]
    simp only [List.length_append]
    omega
  have htake : (ts.take (front.length + passed.length)).drop front.length = passed := by
    rw [hall, List.take_length_add_append, List.drop_left, List.take_left]
  rw [tokens, hindex, hindex', if_pos ⟨Nat.le_add_right _ _, hle⟩, htake]

end

/-! ## Type arguments -/

/-- the angle at an index is the head of an arrow -/
def isArrowHead (ts : List Token) (k : Nat) : Except Fault Bool := do
  match ← previous ts k with
  | none => .ok false
  | some prev =>
    if prev.isPunct '=' then
      let t ← token ts k
      .ok (prev.stop == t.start)
    else .ok false

/-- the index behind the angle that closes, from index `k` on with `depth` angles open; `rest` are the tokens from there
on -/
def skipAngles (ts : List Token) (k depth : Nat) (rest : List Token) : Except Fault Nat :=
  match rest with
  | [] => .ok k
  | t :: rest =>
    if t.isPunct '<' then skipAngles ts (k + 1) (depth + 1) rest
    else if t.isPunct '>' then do
      if ← isArrowHead ts k then skipAngles ts (k + 1) depth rest
      else if depth = 1 then .ok (k + 1)
      else skipAngles ts (k + 1) (depth - 1) rest
    else skipAngles ts (k + 1) depth rest

/-- the index behind a type argument list, if there is one at `i` -/
def skipTypes (ts : List Token) (i : Nat) : Except Fault Nat :=
  if (place ts i).isPunct 0 '<' then skipAngles ts i 0 (ts.drop i) else .ok i

section

variable {ts rest : List Token} {c : Cursor} {prev : Option Token} {t : Token}

theorem isArrowHead_eq (h : (Cursor.start ts).Onward ⟨prev, t :: rest⟩) :
    isArrowHead ts (index ts ⟨prev, t :: rest⟩) = .ok (Cursor.isArrowHead prev t) := by
  rw [isArrowHead, previous_eq h, ok_bind]
  cases prev with
  | none => rfl
  | some p =>
    by_cases hequals : p.isPunct '=' = true
    · simp only [hequals, if_true, token_eq h, ok_bind, Cursor.isArrowHead, Bool.true_and]
    · simp only [hequals, Cursor.isArrowHead, Bool.false_and, Bool.false_eq_true, if_false]

theorem skipAngles_eq (rest : List Token) :
    ∀ (prev : Option Token) (depth : Nat), (Cursor.start ts).Onward ⟨prev, rest⟩ →
    skipAngles ts (index ts ⟨prev, rest⟩) depth rest = .ok (index ts (Cursor.anglesFrom prev depth rest).2) := by
  induction rest with
  | nil => exact fun prev depth h => rfl
  | cons t rest ih =>
    intro prev depth h
    have hnext : ∀ depth, skipAngles ts (index ts ⟨prev, t :: rest⟩ + 1) depth rest =
        .ok (index ts (Cursor.anglesFrom (some t) depth rest).2) := by
      intro depth
      rw [← index_succ h]
      exact ih (some t) depth h.pass
    rw [skipAngles, Cursor.anglesFrom, isArrowHead_eq h]
    simp only [ok_bind, hnext]
    by_cases hopening : t.isPunct '<' = true
    · simp only [hopening, if_true]
    · by_cases hcloser : t.isPunct '>' = true
      · by_cases harrow : Cursor.isArrowHead prev t = true
        · simp only [hopening, hcloser, harrow, if_true, Bool.not_true, Bool.and_false, Bool.false_eq_true, if_false]
        · by_cases hdepth : depth = 1
          · simp only [hopening, hcloser, harrow, hdepth, if_true, Bool.not_false, Bool.and_true, Bool.false_eq_true,
              if_false, index_succ h]
          · simp only [hopening, hcloser, harrow, hdepth, if_true, Bool.not_false, Bool.and_true,
              Bool.false_eq_true, if_false]
      · simp only [hopening, hcloser, Bool.false_and, Bool.false_eq_true, if_false]

/-- **Type argument lists are passed without a fault.** -/
theorem skipTypes_eq (h : (Cursor.start ts).Onward c) :
    skipTypes ts (index ts c) = .ok (index ts c.skipTypeArguments) := by
  rw [skipTypes, place_index h, Cursor.skipTypeArguments, Cursor.typeArguments]
  split_ifs
  · have hrest : ts.drop (index ts c) = c.rest := congrArg Cursor.rest (place_index h)
    rw [hrest]
    exact skipAngles_eq c.rest c.prev 0 h
  · rfl

theorem le_of_skipAngles (rest : List Token) : ∀ {k depth j : Nat}, skipAngles ts k depth rest = .ok j → k ≤ j := by
  induction rest with
  | nil => intro k depth j h; cases h; exact Nat.le_refl k
  | cons t rest ih =>
    have further : ∀ {k depth j : Nat}, skipAngles ts (k + 1) depth rest = .ok j → k ≤ j :=
      fun h => (Nat.le_succ _).trans (ih h)
    intro k depth j h
    rw [skipAngles] at h
    by_cases hopening : t.isPunct '<' = true
    · rw [if_pos hopening] at h
      exact further h
    · rw [if_neg hopening] at h
      by_cases hcloser : t.isPunct '>' = true
      · rw [if_pos hcloser] at h
        obtain ⟨arrow, -, h⟩ := bind_eq_ok h
        split_ifs at h
        · exact further h
        · cases h
          exact Nat.le_succ k
        · exact further h
      · rw [if_neg hcloser] at h
        exact further h

theorem le_of_skipTypes {i j : Nat} (h : skipTypes ts i = .ok j) : i ≤ j := by
  unfold skipTypes at h
  split_ifs at h
  · exact le_of_skipAngles _ h
  · cases h
    exact Nat.le_refl i

/-- a type argument list is what is passed up to the place behind it -/
theorem passes_anglesFrom (rest : List Token) : ∀ (prev : Option Token) (depth : Nat),
    Cursor.Passes ⟨prev, rest⟩ (Cursor.anglesFrom prev depth rest).1 (Cursor.anglesFrom prev depth rest).2 := by
  induction rest with
  | nil => exact fun prev depth => .refl _
  | cons t rest ih =>
    intro prev depth
    have hnext : ∀ depth, Cursor.Passes ⟨prev, t :: rest⟩ (t :: (Cursor.anglesFrom (some t) depth rest).1)
        (Cursor.anglesFrom (some t) depth rest).2 :=
      fun depth => (Cursor.Passes.next (c := ⟨prev, t :: rest⟩) rfl).trans (ih (some t) depth)
    rw [Cursor.anglesFrom]
    split_ifs
    · exact hnext _
    · exact .next rfl
    · exact hnext _
    · exact hnext _

theorem passes_typeArguments (c : Cursor) : c.Passes c.typeArguments.1 c.typeArguments.2 := by
  unfold Cursor.typeArguments
  split_ifs
  · exact passes_anglesFrom c.rest c.prev 0
  · exact .refl c

end

/-! ## Classes and calls -/

/-- the class that the token at index `k` declares -/
def class? (ts : List Token) (k : Nat) (t : Token) : Except Fault (Option ClassName) :=
  if t.isIdent "class" then
    match (place ts (k + 1)).ident? 0 with
    | none => .ok none
    | some name =>
      if name == "extends" || name == "implements" then .ok none
      else do
        let prev ← previous ts k
        .ok (if ModuleSummary.startsClass prev t then some ⟨name, t.line⟩ else none)
  else .ok none

/-- the classes declared from index `k` on; `rest` are the tokens from there on -/
def classesFrom (ts : List Token) (k : Nat) : List Token → Except Fault (List ClassName)
  | [] => .ok []
  | t :: rest => do
    let found ← class? ts k t
    let more ← classesFrom ts (k + 1) rest
    .ok (found.toList ++ more)

/-- the index of the parenthesis of a call whose callee ends in front of index `i` -/
def callParen (ts : List Token) (i : Nat) : Except Fault (Option Nat) := do
  let opening ← skipTypes ts i
  let types ← tokens ts i (min opening ts.length)
  .ok (if !types.any ModuleSummary.isForeignToTypes && (place ts opening).isPunct 0 '(' then some opening else none)

/-- the call of a method at index `k`, if a dot is in front of it -/
def call? (ts : List Token) (k : Nat) : Except Fault (Option CallSite) := do
  let prev ← tokenBefore ts k
  if prev.isPunct '.' then
    let t ← token ts k
    match t.ident? with
    | none => .ok none
    | some method =>
      match ← callParen ts (k + 1) with
      | none => .ok none
      | some opening =>
        let t ← token ts k
        .ok (some ⟨method, ModuleSummary.firstArgument (place ts opening), t.line⟩)
  else .ok none

/-- the calls at `n` indices from `k` on -/
def callsFrom (ts : List Token) (k : Nat) : Nat → Except Fault (List CallSite)
  | 0 => .ok []
  | n + 1 => do
    let found ← call? ts k
    let more ← callsFrom ts (k + 1) n
    .ok (found.toList ++ more)

section

variable {ts rest : List Token} {c : Cursor} {prev : Option Token} {t p : Token}

theorem class?_eq (h : (Cursor.start ts).Onward ⟨prev, t :: rest⟩) :
    class? ts (index ts ⟨prev, t :: rest⟩) t = .ok (ModuleSummary.class? prev t rest) := by
  rw [class?, place_succ h, previous_eq h]
  by_cases hclass : t.isIdent "class" = true
  · have hname : Cursor.ident? ⟨some t, rest⟩ 0 = rest.head?.bind Token.ident? := by cases rest <;> rfl
    simp only [hclass, if_true, hname, ModuleSummary.class?]
    cases rest.head?.bind Token.ident? with
    | none => rfl
    | some name => by_cases he : name = "extends" <;> by_cases hi : name = "implements" <;> simp [he, hi, ok_bind]
  · simp [hclass, ModuleSummary.class?]

/-- **Classes are read without a fault.** -/
theorem classesFrom_eq (rest : List Token) : ∀ prev, (Cursor.start ts).Onward ⟨prev, rest⟩ →
    classesFrom ts (index ts ⟨prev, rest⟩) rest = .ok (ModuleSummary.classesFrom prev rest) := by
  induction rest with
  | nil => exact fun prev h => rfl
  | cons t rest ih =>
    intro prev h
    rw [classesFrom, class?_eq h, ok_bind, ← index_succ h, ih (some t) h.pass, ok_bind]
    rfl

theorem callParen_eq (h : (Cursor.start ts).Onward c) :
    callParen ts (index ts c) = .ok ((ModuleSummary.callParen? c).map (index ts)) := by
  have hafter : (Cursor.start ts).Onward c.typeArguments.2 := h.skipTypeArguments
  have hle : index ts c.typeArguments.2 ≤ ts.length := Nat.sub_le _ _
  rw [callParen, skipTypes_eq h, ok_bind, Cursor.skipTypeArguments, Nat.min_eq_left hle,
    tokens_eq h hafter (passes_typeArguments c), ok_bind, place_index hafter]
  change _ = Except.ok (Option.map (index ts)
    (if !c.typeArguments.1.any ModuleSummary.isForeignToTypes &&
      c.typeArguments.2.isPunct 0 '(' then some c.typeArguments.2 else none))
  split_ifs
  · rfl
  · rfl

/-- the parenthesis of a call is further on -/
theorem onward_callParen? (h : (Cursor.start ts).Onward c) {paren : Cursor}
    (hp : ModuleSummary.callParen? c = some paren) :
    (Cursor.start ts).Onward paren := by
  simp only [ModuleSummary.callParen?] at hp
  split_ifs at hp
  cases hp
  exact h.skipTypeArguments

theorem call?_eq (h : (Cursor.start ts).Onward ⟨some p, t :: rest⟩) :
    call? ts (index ts ⟨some p, t :: rest⟩) = .ok (ModuleSummary.call? p t rest) := by
  rw [call?, tokenBefore_eq h rfl, ok_bind, token_eq h, ← index_succ h, callParen_eq h.pass]
  by_cases hdot : p.isPunct '.' = true
  · cases hmethod : t.ident? with
    | none => simp [hdot, hmethod, ok_bind, ModuleSummary.call?]
    | some method =>
      cases hparen : ModuleSummary.callParen? ⟨some t, rest⟩ with
      | none => simp [hdot, hmethod, hparen, ok_bind, ModuleSummary.call?]
      | some paren =>
        simp [hdot, hmethod, hparen, ok_bind, ModuleSummary.call?, place_index (onward_callParen? h.pass hparen)]
  · simp [hdot, ModuleSummary.call?]

/-- **Calls are read without a fault.** -/
theorem callsFrom_eq (rest : List Token) : ∀ p, (Cursor.start ts).Onward ⟨some p, rest⟩ →
    callsFrom ts (index ts ⟨some p, rest⟩) rest.length = .ok (ModuleSummary.callsFrom (p :: rest)) := by
  induction rest with
  | nil => exact fun p h => rfl
  | cons t rest ih =>
    intro p h
    rw [List.length_cons, callsFrom, call?_eq h, ok_bind, ← index_succ h, ih t h.pass, ok_bind]
    rfl

end

end ClosurePipeline.Indexed
